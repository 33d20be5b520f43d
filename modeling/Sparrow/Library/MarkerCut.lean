import Mathlib.Data.List.Nodup
import Mathlib.Data.List.TakeWhile
import Mathlib.Logic.Relation
import Sparrow.Library.Machine

/-!
# Consistent cuts by aligned markers

Stages joined by FIFO edges, without a cycle. A stage takes items from its input edges
one at a time and produces items on its output edges; an item is data or a numbered
marker. A stage passes a marker on when it was the last item taken from *every* input.
What a stage has done is its history, one entry for each item taken; a source has no
inputs, and an entry for each thing it says on its own.
-/

namespace Sparrow.Library

open List Option

variable {S E α σ ε : Type*}

/-- What travels on an edge. -/
inductive Item (α : Type*) where
  | data (a : α)
  | marker (id : ℕ)
  deriving DecidableEq

variable {id : ℕ}

namespace Item

def data? : Item α → Option α
  | data a => some a
  | marker _ => none

def isMarker (id : ℕ) : Item α → Bool
  | data _ => false
  | marker id' => id' = id

@[simp] theorem data?_data (a : α) : (data a).data? = some a := rfl

@[simp] theorem data?_marker (id : ℕ) : (marker id : Item α).data? = none := rfl

@[simp] theorem isMarker_data (id : ℕ) (a : α) : (data a).isMarker id = false := rfl

@[simp] theorem isMarker_marker (id id' : ℕ) : (marker id' : Item α).isMarker id = decide (id' = id) := rfl

theorem isMarker_iff {x : Item α} : x.isMarker id = true ↔ x = marker id := by
  cases x <;> simp

/-- What comes before the first marker of that number. -/
def before (id : ℕ) (l : List (Item α)) : List (Item α) := l.takeWhile fun x => !x.isMarker id

theorem before_append_marker {l : List (Item α)} (h : marker id ∉ l) (rest : List (Item α)) :
    before id (l ++ marker id :: rest) = l := by
  have hl : ∀ x ∈ l, (!x.isMarker id) = true := by
    intro x hx
    cases hm : x.isMarker id with
    | false => rfl
    | true => exact absurd (isMarker_iff.mp hm ▸ hx) h
  rw [before, takeWhile_append_of_pos hl]
  simp

end Item

/-- The items addressed to one edge, in order. -/
def atEdge [DecidableEq E] {β : Type*} (e : E) (l : List (E × β)) : List β :=
  l.filterMap fun x => if x.1 = e then some x.2 else none

section AtEdge

variable [DecidableEq E] {β : Type*} (e : E)

@[simp] theorem atEdge_nil : atEdge e ([] : List (E × β)) = [] := rfl

@[simp] theorem atEdge_append (l l' : List (E × β)) : atEdge e (l ++ l') = atEdge e l ++ atEdge e l' :=
  filterMap_append

theorem atEdge_cons (x : E × β) (l : List (E × β)) :
    atEdge e (x :: l) = (if x.1 = e then [x.2] else []) ++ atEdge e l := by
  by_cases h : x.1 = e <;> simp [atEdge, h]

theorem mem_atEdge {x : β} {l : List (E × β)} : x ∈ atEdge e l ↔ (e, x) ∈ l := by
  simp only [atEdge, mem_filterMap, ite_none_right_eq_some, some.injEq]
  constructor
  · rintro ⟨⟨e', x'⟩, hm, rfl, rfl⟩
    exact hm
  · exact fun h => ⟨(e, x), h, rfl, rfl⟩

end AtEdge

def addressedData (l : List (E × Item α)) : List (E × α) := l.filterMap fun x => x.2.data?.map fun a => (x.1, a)

section AddressedData

@[simp] theorem addressedData_nil : addressedData ([] : List (E × Item α)) = [] := rfl

@[simp] theorem addressedData_cons_data (e : E) (a : α) (l : List (E × Item α)) :
    addressedData ((e, .data a) :: l) = (e, a) :: addressedData l := rfl

@[simp] theorem addressedData_cons_marker (e : E) (id : ℕ) (l : List (E × Item α)) :
    addressedData ((e, .marker id) :: l) = addressedData l := rfl

@[simp] theorem addressedData_append (l l' : List (E × Item α)) :
    addressedData (l ++ l') = addressedData l ++ addressedData l' := filterMap_append

def asData (l : List (E × α)) : List (E × Item α) := l.map fun x => (x.1, .data x.2)

def markerOn (id : ℕ) (edges : List E) : List (E × Item α) := edges.map fun e => (e, .marker id)

@[simp] theorem addressedData_asData (l : List (E × α)) : addressedData (asData l) = l := by
  simp [addressedData, asData, filterMap_map, Function.comp_def]

@[simp] theorem addressedData_markerOn (id : ℕ) (edges : List E) :
    addressedData (markerOn id edges : List (E × Item α)) = [] := by
  simp [addressedData, markerOn]

theorem filterMap_atEdge [DecidableEq E] (e : E) (l : List (E × Item α)) :
    (atEdge e l).filterMap Item.data? = atEdge e (addressedData l) := by
  induction l with
  | nil => rfl
  | cons x rest ih =>
    obtain ⟨e', item⟩ := x
    rw [atEdge_cons, filterMap_append, ih]
    cases item <;> by_cases h : e' = e <;> simp [atEdge_cons, h]

end AddressedData

/-- One thing a stage has done. -/
structure Entry (E α : Type*) where
  received : Option (E × Item α)
  produced : List (E × Item α)
  passed : Option ℕ

section History

def taken (h : List (Entry E α)) : List (E × Item α) := h.filterMap (·.received)

def made (h : List (Entry E α)) : List (E × Item α) := h.flatMap (·.produced)

def passings (id : ℕ) (h : List (Entry E α)) : ℕ := h.countP fun en => en.passed = some id

/-- The history up to the first passing of a marker. -/
def cutAt (id : ℕ) (h : List (Entry E α)) : List (Entry E α) := h.takeWhile fun en => en.passed ≠ some id

def Passed (id : ℕ) (h : List (Entry E α)) : Prop := ∃ en ∈ h, en.passed = some id

@[simp] theorem taken_nil : taken ([] : List (Entry E α)) = [] := rfl

@[simp] theorem made_nil : made ([] : List (Entry E α)) = [] := rfl

@[simp] theorem taken_append (h h' : List (Entry E α)) : taken (h ++ h') = taken h ++ taken h' := filterMap_append

@[simp] theorem made_append (h h' : List (Entry E α)) : made (h ++ h') = made h ++ made h' := flatMap_append

@[simp] theorem taken_singleton (en : Entry E α) : taken [en] = en.received.toList := by
  cases h : en.received <;> simp [taken, h]

@[simp] theorem made_singleton (en : Entry E α) : made [en] = en.produced := by simp [made]

section

variable {h : List (Entry E α)}

theorem Passed.split (hp : Passed id h) : ∃ en rest, h = cutAt id h ++ en :: rest ∧ en.passed = some id := by
  induction h with
  | nil =>
    obtain ⟨en, hen, -⟩ := hp
    simp at hen
  | cons first rest ih =>
    by_cases hfi : first.passed = some id
    · exact ⟨first, rest, by simp [cutAt, hfi], hfi⟩
    · obtain ⟨en, hen, hpa⟩ := hp
      rcases List.mem_cons.mp hen with rfl | hen
      · exact absurd hpa hfi
      · obtain ⟨en', rest', heq, hp'⟩ := ih ⟨en, hen, hpa⟩
        refine ⟨en', rest', ?_, hp'⟩
        have hc : cutAt id (first :: rest) = first :: cutAt id rest := by simp [cutAt, hfi]
        rw [hc, cons_append, ← heq]

variable {en : Entry E α}

theorem not_passed_of_mem_cutAt (hen : en ∈ cutAt id h) : en.passed ≠ some id := by
  have := mem_takeWhile_imp hen
  simpa using this

theorem Passed.cutAt_append (hp : Passed id h) (h' : List (Entry E α)) : cutAt id (h ++ h') = cutAt id h := by
  obtain ⟨en, rest, heq, hpa⟩ := hp.split
  have ha : ∀ en' ∈ cutAt id h, decide (en'.passed ≠ some id) = true := fun en' he' => by
    simpa using not_passed_of_mem_cutAt he'
  generalize cutAt id h = front at heq ha ⊢
  rw [heq, append_assoc, cutAt, takeWhile_append_of_pos ha]
  simp [hpa]

theorem cutAt_concat (hn : ¬ Passed id h) (hen : en.passed = some id) : cutAt id (h ++ [en]) = h := by
  have ha : ∀ en' ∈ h, decide (en'.passed ≠ some id) = true := fun en' he' => by
    simpa using fun hp => hn ⟨en', he', hp⟩
  rw [cutAt, takeWhile_append_of_pos ha]
  simp [hen]

theorem not_passed_of_passings (hen : en.passed = some id)
    (ho : passings id (h ++ [en]) ≤ 1) : ¬ Passed id h := by
  rintro ⟨en', he', hp⟩
  have hpo : 1 ≤ passings id h := List.countP_pos_iff.mpr ⟨en', he', by simpa using hp⟩
  simp only [passings, countP_append, countP_singleton, hen, decide_true, if_true] at ho
  simp only [passings] at hpo
  omega

end

theorem passed_append {h h' : List (Entry E α)} : Passed id (h ++ h') ↔ Passed id h ∨ Passed id h' := by
  simp [Passed, or_and_right, exists_or]

@[simp] theorem passed_singleton {en : Entry E α} : Passed id [en] ↔ en.passed = some id := by
  simp [Passed]

end History

/-- Stages and the edges between them, without a cycle. -/
structure Wiring (S E : Type*) where
  inputs : S → List E
  outputs : S → List E
  sender : E → S
  receiver : E → S
  mem_inputs : ∀ {s e}, e ∈ inputs s ↔ receiver e = s
  mem_outputs : ∀ {s e}, e ∈ outputs s ↔ sender e = s
  nodup_outputs : ∀ s, (outputs s).Nodup
  rank : S → ℕ
  rank_lt : ∀ e, rank (sender e) < rank (receiver e)

def Wiring.Upstream (W : Wiring S E) : S → S → Prop :=
  Relation.ReflTransGen fun u s => ∃ e, W.sender e = u ∧ W.receiver e = s

/-- A wiring, and what its stages do with data. -/
structure Network (S E α σ ε : Type*) extends Wiring S E where
  init : S → σ
  step : S → σ → E × α → Except ε (List (E × α) × σ)

namespace Network

variable [DecidableEq E] (N : Network S E α σ ε) (s : S)

/-- What may follow a history: data is worked on, a marker is held back or passed on, and a source
says something. -/
inductive Follows (h : List (Entry E α)) (st : σ) : Entry E α → σ → Prop where
  | data {e : E} {a : α} {outs : List (E × α)} {st' : σ} (he : e ∈ N.inputs s)
      (hstep : N.step s st (e, a) = .ok (outs, st')) : Follows h st ⟨some (e, .data a), asData outs, none⟩ st'
  | held {e : E} {id : ℕ} (he : e ∈ N.inputs s) : Follows h st ⟨some (e, .marker id), [], none⟩ st
  | passed {e : E} {id : ℕ} (he : e ∈ N.inputs s)
      (haligned : ∀ i ∈ N.inputs s, (atEdge i (taken h ++ [(e, .marker id)])).getLast? = some (.marker id)) :
      Follows h st ⟨some (e, .marker id), markerOn id (N.outputs s), some id⟩ st
  | emitted {outs : List (E × α)} (hs : N.inputs s = []) : Follows h st ⟨none, asData outs, none⟩ st
  | injected {id : ℕ} (hs : N.inputs s = []) (hnew : ¬ Passed id h) :
      Follows h st ⟨none, markerOn id (N.outputs s), some id⟩ st

/-- A history, and the state it leaves the stage in. -/
inductive Lawful : List (Entry E α) → σ → Prop where
  | start : Lawful [] (N.init s)
  | snoc {h : List (Entry E α)} {st st' : σ} {en : Entry E α} (hh : Lawful h st)
      (hen : N.Follows s h st en st') : Lawful (h ++ [en]) st'

variable {N s}

namespace Follows

variable {h : List (Entry E α)} {st st' : σ} {en : Entry E α}

section

variable (hf : N.Follows s h st en st')

include hf

theorem produced_of_passed (hp : en.passed = some id) : en.produced = markerOn id (N.outputs s) := by
  cases hf with
  | data | held | emitted => simp at hp
  | passed | injected =>
    cases hp
    rfl

theorem passed_of_mem {e : E} (hm : (e, Item.marker id) ∈ en.produced) : en.passed = some id := by
  cases hf with
  | data | emitted => simp [asData] at hm
  | held => simp at hm
  | passed | injected =>
    simp only [markerOn, List.mem_map, Prod.mk.injEq, Item.marker.injEq] at hm
    obtain ⟨e', -, -, rfl⟩ := hm
    rfl

theorem countP_produced {e : E} (he : e ∈ N.outputs s) (id : ℕ) :
    (atEdge e en.produced).countP (Item.isMarker id) = if en.passed = some id then 1 else 0 := by
  split_ifs with hp
  · rw [hf.produced_of_passed hp]
    obtain ⟨before, after, heq, hbe, haf⟩ : ∃ before after, N.outputs s = before ++ e :: after ∧
        e ∉ before ∧ e ∉ after := by
      obtain ⟨before, after, heq⟩ := append_of_mem he
      have hn := heq ▸ N.nodup_outputs s
      rw [nodup_middle, nodup_cons, mem_append] at hn
      exact ⟨before, after, heq, fun hb => hn.1 (.inl hb), fun ha => hn.1 (.inr ha)⟩
    have hno : ∀ edges : List E, e ∉ edges → atEdge e (markerOn id edges : List (E × Item α)) = [] := by
      intro edges hed
      rw [eq_nil_iff_forall_not_mem]
      intro x hx
      simp only [mem_atEdge, markerOn, List.mem_map, Prod.mk.injEq] at hx
      obtain ⟨e', he', rfl, -⟩ := hx
      exact hed he'
    have hap : (markerOn id (N.outputs s) : List (E × Item α)) =
        markerOn id before ++ (e, .marker id) :: markerOn id after := by simp [heq, markerOn]
    rw [hap, atEdge_append, atEdge_cons, hno before hbe, hno after haf]
    simp
  · rw [countP_eq_zero]
    intro x hx hm
    obtain rfl := Item.isMarker_iff.mp hm
    exact hp (hf.passed_of_mem ((mem_atEdge e).mp hx))

theorem aligned (hp : en.passed = some id) (hs : N.inputs s ≠ []) :
    (∃ e ∈ N.inputs s, en.received = some (e, .marker id)) ∧
      ∀ i ∈ N.inputs s, (atEdge i (taken (h ++ [en]))).getLast? = some (.marker id) := by
  cases hf with
  | data | held | emitted => simp at hp
  | passed he ha =>
    cases hp
    exact ⟨⟨_, he, rfl⟩, by simpa using ha⟩
  | injected hno => exact absurd hno hs

end

end Follows

namespace Lawful

variable {h : List (Entry E α)} {st : σ} {en : Entry E α}

theorem split {before after : List (Entry E α)} (hl : N.Lawful s (before ++ en :: after) st) :
    ∃ st₁ st₂, N.Lawful s before st₁ ∧ N.Follows s before st₁ en st₂ := by
  generalize hh : before ++ en :: after = h at hl
  induction hl generalizing after with
  | start => simp at hh
  | @snoc h st st' last hp hla ih =>
    obtain ⟨rfl, rfl⟩ | ⟨after', rfl⟩ := append_singleton_split hh.symm
    · exact ⟨st, st', hp, hla⟩
    · exact ih rfl

section

variable (hl : N.Lawful s h st)

include hl

theorem of_mem (hen : en ∈ h) :
    ∃ before st₁ st₂, before ++ [en] <+: h ∧ N.Lawful s before st₁ ∧ N.Follows s before st₁ en st₂ := by
  obtain ⟨before, after, rfl⟩ := append_of_mem hen
  obtain ⟨st₁, st₂, hb, hen⟩ := hl.split
  exact ⟨before, st₁, st₂, ⟨after, by simp⟩, hb, hen⟩

/-- **A stage does with the data what its step function does**: markers do not show. -/
theorem replay (hs : N.inputs s ≠ []) :
    Machine.runOk (N.step s) (N.init s) (addressedData (taken h)) = .ok (addressedData (made h), st) := by
  induction hl with
  | start => rfl
  | @snoc h st st' en _ hen ih =>
    cases hen with
    | data he hst => simpa using Machine.runOk_snoc ih hst
    | held | passed => simpa using ih
    | emitted hno | injected hno => exact absurd hno hs

variable {e : E}

theorem mem_inputs_of_taken {x : Item α} (hx : (e, x) ∈ taken h) : e ∈ N.inputs s := by
  induction hl with
  | start => simp at hx
  | @snoc h st st' en _ hen ih =>
    rw [taken_append, mem_append] at hx
    rcases hx with hx | hx
    · exact ih hx
    · cases hen with
      | data he | held he | passed he =>
        simp only [taken_singleton, toList_some, mem_singleton, Prod.mk.injEq] at hx
        exact hx.1 ▸ he
      | emitted | injected => simp at hx

theorem countP_made (he : e ∈ N.outputs s) (id : ℕ) :
    (atEdge e (made h)).countP (Item.isMarker id) = passings id h := by
  induction hl with
  | start => rfl
  | @snoc h st st' en hp hen ih =>
    rw [made_append, made_singleton, atEdge_append, countP_append, ih, hen.countP_produced he]
    simp [passings, countP_append, countP_cons]

theorem passed_of_mem_made (hm : (e, Item.marker id) ∈ made h) : Passed id h := by
  obtain ⟨en, hen, hme⟩ := List.mem_flatMap.mp hm
  obtain ⟨_, _, _, -, -, hf⟩ := hl.of_mem hen
  exact ⟨en, hen, hf.passed_of_mem hme⟩

theorem marker_mem_of_passed (hp : Passed id h) {i : E} (hi : i ∈ N.inputs s) :
    Item.marker id ∈ atEdge i (taken h) := by
  obtain ⟨en, hen, hpa⟩ := hp
  obtain ⟨before, st₁, st₂, ⟨after, rfl⟩, -, hf⟩ := hl.of_mem hen
  obtain ⟨-, ha⟩ := hf.aligned hpa (ne_nil_of_mem hi)
  rw [taken_append, atEdge_append, mem_append]
  exact .inl (mem_of_getLast? (ha i hi))

theorem passings_le_one_of (hin : ∀ i ∈ N.inputs s,
    (atEdge i (taken h)).countP (Item.isMarker id) ≤ 1) : passings id h ≤ 1 := by
  induction hl with
  | start => simp [passings]
  | @snoc h st st' en hpre hen ih =>
    have hpr : ∀ i ∈ N.inputs s, (atEdge i (taken h)).countP (Item.isMarker id) ≤ 1 := by
      intro i hi
      have := hin i hi
      rw [taken_append, atEdge_append, countP_append] at this
      omega
    have hc : passings id (h ++ [en]) = passings id h + if en.passed = some id then 1 else 0 := by
      simp [passings, countP_append, countP_cons]
    rw [hc]
    split_ifs with hp
    swap
    · exact ih hpr
    -- this entry passes the marker, so no entry before it has
    suffices hno : ¬ Passed id h by
      have hz : passings id h = 0 := by
        rw [passings, countP_eq_zero]
        exact fun en' he' hpa => hno ⟨en', he', by simpa using hpa⟩
      omega
    intro hb
    cases hen with
    | data | held | emitted => simp at hp
    | injected _ hn => exact hn (some.inj hp ▸ hb)
    | @passed e id' he ha =>
      obtain rfl := some.inj hp
      have hea : 1 ≤ (atEdge e (taken h)).countP (Item.isMarker id') :=
        List.countP_pos_iff.mpr ⟨_, hpre.marker_mem_of_passed hb he, by simp⟩
      have := hin e he
      rw [taken_append, taken_singleton, atEdge_append, countP_append] at this
      simp only [toList_some, atEdge_cons, if_pos, atEdge_nil, append_nil, Item.isMarker_marker,
        decide_true, countP_singleton] at this
      omega

theorem before_made (hp : Passed id h) (he : e ∈ N.outputs s) :
    Item.before id (atEdge e (made h)) = atEdge e (made (cutAt id h)) := by
  obtain ⟨en, rest, heq, hpa⟩ := hp.split
  have hl' := heq ▸ hl
  obtain ⟨st₁, st₂, hc, hf⟩ := hl'.split
  have hn : Item.marker id ∉ atEdge e (made (cutAt id h)) := by
    intro hm
    obtain ⟨en', he', hp'⟩ := hc.passed_of_mem_made ((mem_atEdge e).mp hm)
    exact not_passed_of_mem_cutAt he' hp'
  -- the entry itself has the marker on the edge, and nothing before it
  have ho := hf.countP_produced he id
  rw [if_pos hpa] at ho
  obtain ⟨m, after, hpr⟩ : ∃ m after, atEdge e en.produced = m :: after := by
    cases hpr : atEdge e en.produced with
    | nil => simp [hpr] at ho
    | cons m after => exact ⟨m, after, rfl⟩
  obtain rfl : m = .marker id := by
    have hm : (e, m) ∈ en.produced := (mem_atEdge e).mp (hpr ▸ mem_cons_self)
    rw [hf.produced_of_passed hpa] at hm
    simp only [markerOn, List.mem_map, Prod.mk.injEq] at hm
    obtain ⟨_, -, -, rfl⟩ := hm
    rfl
  have hs : atEdge e (made h) = atEdge e (made (cutAt id h)) ++ .marker id :: (after ++ atEdge e (made rest)) := by
    conv_lhs => rw [heq]
    rw [made_append, atEdge_append, ← singleton_append, made_append, made_singleton, atEdge_append, hpr]
    simp
  rw [hs, Item.before_append_marker hn]

/-- The data on an input before a marker that comes once is the data taken before it was passed. -/
theorem before_taken (hp : Passed id h) {i : E} (hi : i ∈ N.inputs s)
    (ho : (atEdge i (taken h)).countP (Item.isMarker id) ≤ 1) :
    (Item.before id (atEdge i (taken h))).filterMap Item.data? = atEdge i (addressedData (taken (cutAt id h))) := by
  obtain ⟨en, rest, heq, hpa⟩ := hp.split
  have hl' := heq ▸ hl
  obtain ⟨st₁, st₂, -, hf⟩ := hl'.split
  obtain ⟨⟨e, -, hr⟩, ha⟩ := hf.aligned hpa (ne_nil_of_mem hi)
  obtain ⟨front, hfr⟩ := List.getLast?_eq_some_iff.mp (ha i hi)
  have hs : atEdge i (taken h) = front ++ .marker id :: atEdge i (taken rest) := by
    conv_lhs => rw [heq]
    rw [← singleton_append, ← append_assoc, taken_append, atEdge_append, hfr]
    simp
  have hn : Item.marker id ∉ front := by
    intro hm
    have hpo : 1 ≤ front.countP (Item.isMarker id) := List.countP_pos_iff.mpr ⟨_, hm, by simp⟩
    rw [hs, countP_append, countP_cons_of_pos (by simp)] at ho
    omega
  rw [hs, Item.before_append_marker hn]
  calc front.filterMap Item.data?
      = (front ++ [Item.marker id]).filterMap Item.data? := by simp
    _ = atEdge i (addressedData (taken (cutAt id h ++ [en]))) := by rw [← hfr, filterMap_atEdge]
    _ = atEdge i (addressedData (taken (cutAt id h))) := by
        rw [taken_append, taken_singleton, hr, addressedData_append]
        simp

end

end Lawful

variable (N)

/-- The histories of all stages, joined by FIFO edges: what has been taken from an edge is a beginning
of what was produced on it. -/
structure Connected (history : S → List (Entry E α)) : Prop where
  lawful : ∀ s, ∃ st, N.Lawful s (history s) st
  fifo : ∀ e, atEdge e (taken (history (N.receiver e))) <+: atEdge e (made (history (N.sender e)))

variable {N}

namespace Connected

variable {history : S → List (Entry E α)}

/-- **A stage passes a marker at most once.** -/
theorem passings_le_one (hc : N.Connected history) (s : S) (id : ℕ) : passings id (history s) ≤ 1 := by
  -- along the edges: what comes in once goes out once
  induction hr : N.rank s using Nat.strong_induction_on generalizing s with
  | _ r ih =>
    obtain ⟨st, hl⟩ := hc.lawful s
    refine hl.passings_le_one_of fun i hi => ?_
    obtain rfl := N.mem_inputs.mp hi
    obtain ⟨st', hl'⟩ := hc.lawful (N.sender i)
    calc (atEdge i (taken (history (N.receiver i)))).countP (Item.isMarker id)
        ≤ (atEdge i (made (history (N.sender i)))).countP (Item.isMarker id) := (hc.fifo i).sublist.countP_le
      _ = passings id (history (N.sender i)) := hl'.countP_made (N.mem_outputs.mpr rfl) id
      _ ≤ 1 := ih _ (hr ▸ N.rank_lt i) _ rfl

theorem countP_made_le_one (hc : N.Connected history) (e : E) (id : ℕ) :
    (atEdge e (made (history (N.sender e)))).countP (Item.isMarker id) ≤ 1 := by
  obtain ⟨st, hl⟩ := hc.lawful (N.sender e)
  rw [hl.countP_made (N.mem_outputs.mpr rfl)]
  exact hc.passings_le_one _ id

theorem passed_of_taken (hc : N.Connected history) {e : E}
    (hm : Item.marker id ∈ atEdge e (taken (history (N.receiver e)))) : Passed id (history (N.sender e)) := by
  obtain ⟨st, hl⟩ := hc.lawful (N.sender e)
  exact hl.passed_of_mem_made ((mem_atEdge e).mp ((hc.fifo e).subset hm))

/-- **The cut agrees on every edge**: the data a stage took before it passed a marker is the data
produced before the marker there. -/
theorem cut_agrees (hc : N.Connected history) {s : S} (hp : Passed id (history s)) {i : E} (hi : i ∈ N.inputs s) :
    Passed id (history (N.sender i)) ∧ atEdge i (addressedData (taken (cutAt id (history s)))) =
        atEdge i (addressedData (made (cutAt id (history (N.sender i))))) := by
  obtain rfl := N.mem_inputs.mp hi
  obtain ⟨st, hl⟩ := hc.lawful (N.receiver i)
  obtain ⟨st', hl'⟩ := hc.lawful (N.sender i)
  have hme := hl.marker_mem_of_passed hp hi
  have hp' := hc.passed_of_taken hme
  have ho : (atEdge i (taken (history (N.receiver i)))).countP (Item.isMarker id) ≤ 1 :=
    ((hc.fifo i).sublist.countP_le).trans (hc.countP_made_le_one i id)
  refine ⟨hp', ?_⟩
  rw [← hl.before_taken hp hi ho, ← filterMap_atEdge, ← hl'.before_made hp' (N.mem_outputs.mpr rfl)]
  -- the marker lies in the part that was taken
  obtain ⟨rest, hr⟩ := hc.fifo i
  obtain ⟨front, after, hfr, hn⟩ : ∃ front after,
      atEdge i (taken (history (N.receiver i))) = front ++ .marker id :: after ∧ .marker id ∉ front := by
    obtain ⟨front, after, heq⟩ := append_of_mem hme
    refine ⟨front, after, heq, fun hm => ?_⟩
    have hpo : 1 ≤ front.countP (Item.isMarker id) := List.countP_pos_iff.mpr ⟨_, hm, by simp⟩
    rw [heq, countP_append, countP_cons_of_pos (by simp)] at ho
    omega
  rw [← hr, hfr, append_assoc, cons_append, Item.before_append_marker hn,
    Item.before_append_marker hn]

end Connected

/-- What a stage took and produced follows from what was produced before it: it took what its senders
produced for it, and produced what its step function makes of that. What a source produced is free. -/
structure DerivedAt (N : Network S E α σ ε) (took produced : S → List (E × α)) (s : S) : Prop where
  edges : ∀ x ∈ took s, x.1 ∈ N.inputs s
  agrees : ∀ i ∈ N.inputs s, atEdge i (took s) = atEdge i (produced (N.sender i))
  run : N.inputs s ≠ [] → ∃ st, Machine.runOk (N.step s) (N.init s) (took s) = .ok (produced s, st)

/-- **A marker that a stage has passed cuts everything upstream of it consistently.** -/
theorem Connected.consistent {history : S → List (Entry E α)} (hc : N.Connected history) {p : S}
    (hp : Passed id (history p)) {s : S} (hs : N.Upstream s p) :
    Passed id (history s) ∧ N.DerivedAt (fun s => addressedData (taken (cutAt id (history s))))
      (fun s => addressedData (made (cutAt id (history s)))) s := by
  have hpa : Passed id (history s) := by
    induction hs using Relation.ReflTransGen.head_induction_on with
    | refl => exact hp
    | head hst _ ih =>
      obtain ⟨e, rfl, rfl⟩ := hst
      exact (hc.cut_agrees ih (N.mem_inputs.mpr rfl)).1
  obtain ⟨st, hl⟩ := hc.lawful s
  obtain ⟨en, rest, heq, -⟩ := hpa.split
  have hl' := heq ▸ hl
  obtain ⟨st₁, -, hcu, -⟩ := hl'.split
  refine ⟨hpa, fun x hx => ?_, fun i hi => (hc.cut_agrees hpa hi).2, fun hin => ⟨st₁, hcu.replay hin⟩⟩
  obtain ⟨y, hy, hxy⟩ := List.mem_filterMap.mp hx
  obtain ⟨a, -, rfl⟩ := Option.map_eq_some_iff.mp hxy
  exact hcu.mem_inputs_of_taken hy

end Network

end Sparrow.Library
