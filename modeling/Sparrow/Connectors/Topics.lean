import Sparrow.Model.Error

/-!
# Topics and patterns of the local bus

`sparrow-connectors/src/databus/mod.rs`: a topic is a sequence of tokens between dots. In a
pattern `*` stands for one token and `>`, at the end, for one or more. `check_databus` of
`sparrow-control/src/spec.rs` refuses a pipeline if a pattern it subscribes to overlaps a topic
it publishes on.

The two walks over the tokens need neither that `>` stands at the end nor that tokens are
literal; the check of a pattern is what makes a common topic one that can be published on.
-/

namespace Sparrow.Connectors.Databus

open Model List

/-! ### The source -/

/-- `split('.')`. -/
def tokens (topic : String) : List String := (topic.toList.splitOn '.').map String.ofList

def isLiteral (token : String) : Bool :=
  token ≠ "" && token.toList.all fun c => c.isAlphanum || c = '_' || c = '-'

def tokenOk (allowWildcards last : Bool) (token : String) : Bool :=
  if token = "*" then allowWildcards
  else if token = ">" then allowWildcards && last
  else isLiteral token

/-- `check_topic`. -/
def checkTopic (topic : String) (allowWildcards : Bool) : Result Unit :=
  refuseIf (¬ (topic ≠ "" ∧ topic.utf8ByteSize ≤ 128 ∧ (tokens topic).length ≤ 16 ∧
      ∀ x ∈ (tokens topic).zipIdx, tokenOk allowWildcards (x.2 + 1 = (tokens topic).length) x.1))
    (.new .invalidArgument (if allowWildcards then
      "databus topic: 1..=16 `.`-separated tokens of [A-Za-z0-9_-] (<=128 bytes); `*` = one token, `>` only last"
    else "databus publish topic must be literal: 1..=16 `.`-separated tokens of [A-Za-z0-9_-] (<=128 bytes)"))

/-- The loop of `topic_matches`. -/
def matchTokens : List String → List String → Bool
  | p :: ps, t :: ts => if p = ">" then true else if p = "*" ∨ p = t then matchTokens ps ts else false
  | [], [] => true
  | _, _ => false

/-- `topic_matches`. -/
def topicMatches (pattern topic : String) : Bool := matchTokens (tokens pattern) (tokens topic)

/-- The loop of `patterns_overlap`. -/
def overlapTokens : List String → List String → Bool
  | a :: as, b :: bs =>
    if a = ">" ∨ b = ">" then true else if a = "*" ∨ b = "*" ∨ a = b then overlapTokens as bs else false
  | [], [] => true
  | _, _ => false

/-- `patterns_overlap`. -/
def patternsOverlap (a b : String) : Bool := overlapTokens (tokens a) (tokens b)

/-- The loop of `check_databus` over the topics of the sources and of the sinks. -/
def checkFeedback (sources sinks : List String) : Result Unit :=
  sources.forM fun pattern => sinks.forM fun topic => refuseIf (patternsOverlap pattern topic) (.new .invalidArgument
    s!"DataBus source `{pattern}` would receive this pipeline's own sink topic `{topic}` (feedback loop)")

/-! ### Walks over tokens -/

variable {as bs ts : List String} {a b t : String}

theorem overlapTokens_comm : overlapTokens as bs = overlapTokens bs as := by
  induction as generalizing bs with
  | nil => cases bs <;> rfl
  | cons a as ih =>
    cases bs with
    | nil => rfl
    | cons b bs =>
      have hs : (a = "*" ∨ b = "*" ∨ a = b) ↔ (b = "*" ∨ a = "*" ∨ b = a) := by
        rw [or_left_comm, @eq_comm _ a b]
      simp only [overlapTokens, @ih bs, hs, @or_comm (a = ">")]

/-- A walk against literal tokens meets no wildcard on the other side. -/
theorem overlapTokens_literal (h : ∀ t ∈ ts, isLiteral t = true) : overlapTokens as ts = matchTokens as ts := by
  induction as generalizing ts with
  | nil => cases ts <;> rfl
  | cons a as ih =>
    cases ts with
    | nil => rfl
    | cons t ts =>
      obtain ⟨ht, hts⟩ := forall_mem_cons.mp h
      have hr : t ≠ ">" := by
        rintro rfl
        exact absurd ht (by decide)
      have ho : t ≠ "*" := by
        rintro rfl
        exact absurd ht (by decide)
      simp only [overlapTokens, matchTokens, hr, ho, or_false, false_or, ih hts]

theorem overlapTokens_of_common (ha : matchTokens as ts = true) (hb : matchTokens bs ts = true) :
    overlapTokens as bs = true := by
  induction ts generalizing as bs with
  | nil =>
    cases as with
    | nil =>
      cases bs with
      | nil => rfl
      | cons => cases hb
    | cons => cases ha
  | cons t ts ih =>
    cases as with
    | nil => cases ha
    | cons a as =>
      cases bs with
      | nil => cases hb
      | cons b bs =>
        simp only [matchTokens] at ha hb
        unfold overlapTokens
        split_ifs at ha hb ⊢ with hr₁ hr₂ hr₃ ho₁ ho₂ ho₃
        all_goals first | rfl | exact ih ha hb | grind

/-- A token that the pattern token stands for. -/
def fill (token : String) : String := if token = "*" ∨ token = ">" then "x" else token

theorem matchTokens_fill (as : List String) : matchTokens as (as.map fill) = true := by
  induction as with
  | nil => rfl
  | cons a as ih =>
    rw [map_cons, matchTokens]
    split_ifs with hr ho
    · rfl
    · exact ih
    · exact absurd (by simp [fill, not_or.mp ho, hr]) (not_or.mp ho).2

/-- Where the walks end at a `>`, the rest of the other pattern goes on alone. -/
def common : List String → List String → List String
  | a :: as, b :: bs =>
    if a = ">" then (b :: bs).map fill
    else if b = ">" then (a :: as).map fill
    else fill (if a = "*" then b else a) :: common as bs
  | _, _ => []

theorem matchTokens_common (h : overlapTokens as bs = true) :
    matchTokens as (common as bs) = true ∧ matchTokens bs (common as bs) = true := by
  induction as generalizing bs with
  | nil =>
    cases bs with
    | nil => exact ⟨rfl, rfl⟩
    | cons => cases h
  | cons a as ih =>
    cases bs with
    | nil => cases h
    | cons b bs =>
      rw [overlapTokens] at h
      rw [common]
      by_cases hr : a = ">"
      · rw [if_pos hr]
        exact ⟨by simp [matchTokens, hr], matchTokens_fill _⟩
      rw [if_neg hr]
      by_cases hr' : b = ">"
      · rw [if_pos hr']
        exact ⟨matchTokens_fill _, by simp [matchTokens, hr']⟩
      rw [if_neg (not_or.mpr ⟨hr, hr'⟩)] at h
      split_ifs at h with ho
      obtain ⟨has, hbs⟩ := ih h
      simp only [matchTokens, hr, hr', if_false, has, hbs]
      grind [fill]

/-! ### Checked patterns -/

/-- A topic one can publish on, of any length. -/
def Literal (topic : String) : Prop := ∀ t ∈ tokens topic, isLiteral t = true

theorem tokenOk_of_mem {allow : Bool} (h : checkTopic a allow = .ok ()) (ht : t ∈ tokens a) :
    ∃ last, tokenOk allow last t = true := by
  obtain ⟨-, -, -, ha⟩ := not_not.mp (refuseIf_eq_ok.mp h)
  obtain ⟨i, hi⟩ := mem_iff_getElem?.mp ht
  exact ⟨_, ha (t, i) (mk_mem_zipIdx_iff_getElem?.mpr hi)⟩

theorem literal_of_checkTopic (h : checkTopic a false = .ok ()) : Literal a := by
  intro t ht
  obtain ⟨last, hok⟩ := tokenOk_of_mem h ht
  unfold tokenOk at hok
  split_ifs at hok
  · cases hok
  · exact hok

theorem isLiteral_fill (h : checkTopic a true = .ok ()) (ht : t ∈ tokens a) : isLiteral (fill t) = true := by
  obtain ⟨last, hok⟩ := tokenOk_of_mem h ht
  unfold tokenOk at hok
  unfold fill
  split_ifs at hok ⊢ with ho hr <;> first | decide | simp_all

theorem mem_common (h : t ∈ common as bs) : ∃ p, (p ∈ as ∨ p ∈ bs) ∧ t = fill p := by
  induction as generalizing bs with
  | nil => simp [common] at h
  | cons a as ih =>
    cases bs with
    | nil => simp [common] at h
    | cons b bs =>
      rw [common] at h
      split_ifs at h with hr hr' ho
      · obtain ⟨p, hp, rfl⟩ := mem_map.mp h
        exact ⟨p, .inr hp, rfl⟩
      · obtain ⟨p, hp, rfl⟩ := mem_map.mp h
        exact ⟨p, .inl hp, rfl⟩
      all_goals
        rcases mem_cons.mp h with rfl | h
        · exact ⟨_, by simp, rfl⟩
        · obtain ⟨p, hp, rfl⟩ := ih h
          exact ⟨p, hp.imp (mem_cons_of_mem _) (mem_cons_of_mem _), rfl⟩

/-- Literal tokens have no dots, so they are those of the topic they are joined to. -/
theorem exists_topic (hts : ∀ t ∈ ts, isLiteral t = true) (hne : ts ≠ []) : ∃ topic, tokens topic = ts := by
  refine ⟨String.ofList (['.'].intercalate (ts.map String.toList)), ?_⟩
  have hdo : ∀ l ∈ ts.map String.toList, '.' ∉ l := by
    intro l hl hd
    obtain ⟨t, ht, rfl⟩ := mem_map.mp hl
    have hli := hts t ht
    rw [isLiteral, Bool.and_eq_true, all_eq_true] at hli
    exact absurd (hli.2 '.' hd) (by decide)
  rw [tokens, String.toList_ofList, splitOn_intercalate '.' hdo (by simpa using hne), map_map]
  simp

theorem tokens_ne_nil (topic : String) : tokens topic ≠ [] := by simp [tokens]

/-- **Overlap is exact**, is symmetric and says of a literal topic whether it matches; so what a
pipeline publishes matches none of its own patterns. -/
theorem overlap_exact (ha : checkTopic a true = .ok ()) (hb : checkTopic b true = .ok ()) :
    (patternsOverlap a b = true ↔ ∃ t, Literal t ∧ topicMatches a t = true ∧ topicMatches b t = true) ∧
    patternsOverlap a b = patternsOverlap b a ∧
    (∀ t, Literal t → patternsOverlap a t = topicMatches a t) ∧
    ∀ sources sinks, checkFeedback sources sinks = .ok () → a ∈ sources → ∀ t ∈ sinks, checkTopic t false = .ok () →
      topicMatches a t = false := by
  have hli : ∀ t, Literal t → patternsOverlap a t = topicMatches a t := fun t => overlapTokens_literal
  refine ⟨⟨fun h => ?_, ?_⟩, overlapTokens_comm, hli, ?_⟩
  · obtain ⟨hma, hmb⟩ := matchTokens_common h
    have hl : ∀ t ∈ common (tokens a) (tokens b), isLiteral t = true := by
      intro t ht
      obtain ⟨p, hp | hp, rfl⟩ := mem_common ht
      · exact isLiteral_fill ha hp
      · exact isLiteral_fill hb hp
    have hne : common (tokens a) (tokens b) ≠ [] := by
      intro hn
      rw [hn] at hma
      cases hta : tokens a with
      | nil => exact tokens_ne_nil a hta
      | cons p ps => simp [hta, matchTokens] at hma
    obtain ⟨topic, hto⟩ := exists_topic hl hne
    refine ⟨topic, ?_, ?_, ?_⟩
    · rw [Literal, hto]
      exact hl
    · rw [topicMatches, hto]
      exact hma
    · rw [topicMatches, hto]
      exact hmb
  · rintro ⟨t, -, hma, hmb⟩
    exact overlapTokens_of_common hma hmb
  · intro sources sinks hc hm t ht hpu
    have hs := Result.forM_eq_ok.mp (Result.forM_eq_ok.mp hc a hm) t ht
    rw [← hli t (literal_of_checkTopic hpu)]
    exact Bool.eq_false_iff.mpr (refuseIf_eq_ok.mp hs)

theorem overlap_exact_sample :
    (∃ t, Literal t ∧ topicMatches "a.>" t = true ∧ topicMatches "*.x.y" t = true) ∧
      topicMatches "a.>" "b.c" = false := by
  obtain ⟨hi, -, -, hf⟩ := overlap_exact (a := "a.>") (b := "*.x.y") (by decide) (by decide)
  exact ⟨hi.mp (by decide), hf ["a.>"] ["b.c"] (by decide) (by simp) "b.c" (by simp) (by decide)⟩

end Sparrow.Connectors.Databus
