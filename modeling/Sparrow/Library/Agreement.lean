import Sparrow.Library.Codec

/-!
# Two parsers of one grammar

One parser builds what it reads, another only checks it. `Agree R p q` says that on every input
both fail, or both succeed, leave the same input and return values related by `R`. Nothing is said
of the errors.

## What is proved

* `Agree.bind`, `Agree.same`, `Agree.many` — sequences, a part that both read with the same parser,
  repetition.
-/

namespace Sparrow.Library.Parser

variable {ε α β γ δ : Type} {R : α → β → Prop} {S : γ → δ → Prop}

/-- Both failed, or both succeeded with the same input left. -/
inductive Agrees (R : α → β → Prop) : Except ε (α × Bytes) → Except ε (β × Bytes) → Prop where
  | error (e e' : ε) : Agrees R (.error e) (.error e')
  | ok {a : α} {b : β} (h : R a b) (rest : Bytes) : Agrees R (.ok (a, rest)) (.ok (b, rest))

/-- The parsers accept the same inputs, and read the same part of them. -/
def Agree (R : α → β → Prop) (p : Parser ε α) (q : Parser ε β) : Prop := ∀ src, Agrees R (p src) (q src)

theorem Agree.pure {a : α} {b : β} (h : R a b) : Agree R (Pure.pure a : Parser ε α) (Pure.pure b) :=
  fun src => .ok h src

theorem Agree.fail (e e' : ε) : Agree R (Parser.fail e) (Parser.fail e') := fun _ => .error e e'

theorem Agree.take (n : ℕ) (e e' : ε) : Agree Eq (Parser.take n e) (Parser.take n e') := by
  intro src
  unfold Parser.take
  split_ifs
  · exact .error e e'
  · exact .ok rfl _

section

variable {p : Parser ε α} {q : Parser ε β} {f : α → Parser ε γ}

/-- **Sequencing.** -/
theorem Agree.bind {g : β → Parser ε δ} (hpq : Agree R p q)
    (hfg : ∀ a b, R a b → Agree S (f a) (g b)) : Agree S (p >>= f) (q >>= g) := by
  intro src
  change Agrees S (p src >>= fun r => f r.1 r.2) (q src >>= fun r => g r.1 r.2)
  generalize p src = left, q src = right, hpq src = h
  cases h with
  | error e e' => exact .error e e'
  | ok hR rest => exact hfg _ _ hR rest

theorem Agree.same {g : α → Parser ε δ} (hfg : ∀ a, Agree S (f a) (g a)) : Agree S (p >>= f) (p >>= g) := by
  refine Agree.bind (R := Eq) (fun src => ?_) fun a _ h => h ▸ hfg a
  cases p src with
  | error e => exact .error e e
  | ok r => exact .ok rfl r.2

theorem Agree.mono {R' : α → β → Prop} (h : Agree R p q) (hR : ∀ a b, R a b → R' a b) : Agree R' p q := by
  intro src
  generalize p src = left, q src = right, h src = hs
  cases hs with
  | error e e' => exact .error e e'
  | ok hab rest => exact .ok (hR _ _ hab) rest

theorem Agree.map_left {f : α → γ} {S : γ → β → Prop} (h : Agree R p q)
    (hS : ∀ a b, R a b → S (f a) b) : Agree S (p >>= fun a => Pure.pure (f a)) q := by
  intro src
  change Agrees S (p src >>= fun r => .ok (f r.1, r.2)) (q src)
  generalize p src = left, q src = right, h src = hs
  cases hs with
  | error e e' => exact .error e e'
  | ok hab rest => exact .ok (hS _ _ hab) rest

/-- **Repetition.** `I` relates what was built so far to the states of the two parsers. -/
theorem Agree.many {σ τ : Type} {p : σ → Parser ε (α × σ)} {q : τ → Parser ε (β × τ)} {I : List α → σ → τ → Prop}
    (hs : ∀ as s t, I as s t → Agree (fun a b => I (as ++ [a.1]) a.2 b.2) (p s) (q t)) (n : ℕ) {as : List α} {s : σ}
    {t : τ} (h : I as s t) :
    Agree (fun a b => I (as ++ a.1) a.2 b.2 ∧ a.1.length = n) (many p n s) (many q n t) := by
  induction n generalizing as s t with
  | zero => exact .pure ⟨by simpa using h, rfl⟩
  | succ n ih =>
    refine (hs as s t h).bind fun a b hab => (ih hab).bind fun a' b' ⟨hI, hl⟩ => .pure ⟨?_, ?_⟩
    · simpa using hI
    · rw [List.length_cons, hl]

def consumed (p : Parser ε α) : Parser ε (α × Bytes) := fun src =>
  p src >>= fun r => .ok ((r.1, src.take (src.length - r.2.length)), r.2)

theorem Agree.consumed {S : α × Bytes → β × Bytes → Prop} (h : Agree R p q)
    (hS : ∀ src a rest b, p src = .ok (a, rest) → R a b →
      S (a, src.take (src.length - rest.length)) (b, src.take (src.length - rest.length))) :
    Agree S (consumed p) (consumed q) := by
  intro src
  have hs := h src
  unfold Parser.consumed
  generalize hp : p src = left at hs ⊢
  generalize q src = right at hs ⊢
  cases hs with
  | error e e' => exact .error e e'
  | ok hR rest => exact .ok (hS src _ rest _ hp hR) rest

theorem Agree.of_consumed {S : α × Bytes → β → Prop} (h : Agree S (Parser.consumed p) q) :
    Agree (fun a b => ∃ bytes, S (a, bytes) b) p q := by
  intro src
  have hs := h src
  unfold Parser.consumed at hs
  generalize p src = left at hs ⊢
  generalize q src = right at hs ⊢
  cases left with
  | error e => cases hs with | error _ e' => exact .error e e'
  | ok r => cases hs with | ok hS rest => exact .ok ⟨_, hS⟩ _

end

/-! ### Fields of a fixed width -/

/-- The parser takes `k` bytes whatever they are, and returns a value with `Q`. -/
def Takes (Q : α → Prop) (k : ℕ) (p : Parser ε α) : Prop :=
  ∀ src, if src.length < k then ∃ e, p src = .error e else ∃ a, p src = .ok (a, src.drop k) ∧ Q a

variable {Q : α → Prop}

theorem Takes.pure {a : α} (h : Q a) : Takes Q 0 (Pure.pure a : Parser ε α) := fun _ => ⟨a, rfl, h⟩

theorem Takes.take (k : ℕ) (e : ε) : Takes (fun _ => True) k (Parser.take k e) := by
  intro src
  unfold Parser.take
  split_ifs
  · exact ⟨e, rfl⟩
  · exact ⟨_, rfl, trivial⟩

variable {p : Parser ε α}

theorem Takes.bind {Q' : γ → Prop} {k m : ℕ} {f : α → Parser ε γ} (hp : Takes Q k p)
    (hf : ∀ a, Q a → Takes Q' m (f a)) : Takes Q' (k + m) (p >>= f) := by
  intro src
  change if src.length < k + m then ∃ e, (p src >>= fun r => f r.1 r.2) = .error e
    else ∃ a, (p src >>= fun r => f r.1 r.2) = .ok (a, src.drop (k + m)) ∧ Q' a
  have hs := hp src
  by_cases hk : src.length < k
  · rw [if_pos hk] at hs
    obtain ⟨e, h⟩ := hs
    rw [if_pos (by omega), h]
    exact ⟨e, rfl⟩
  · rw [if_neg hk] at hs
    obtain ⟨a, h, ha⟩ := hs
    rw [h]
    have hr := hf a ha (src.drop k)
    rw [List.length_drop, List.drop_drop] at hr
    by_cases hm : src.length < k + m
    · rw [if_pos (by omega)] at hr
      rw [if_pos hm]
      exact hr
    · rw [if_neg (by omega)] at hr
      rw [if_neg hm]
      exact hr

/-- **Fields of the same width** are read alike. -/
theorem Takes.agree {Q' : β → Prop} {k : ℕ} {q : Parser ε β} (hp : Takes Q k p)
    (hq : Takes Q' k q) : Agree (fun a b => Q a ∧ Q' b) p q := by
  intro src
  have hl := hp src
  have hr := hq src
  split_ifs at hl hr
  · obtain ⟨e, he⟩ := hl
    obtain ⟨e', he'⟩ := hr
    rw [he, he']
    exact .error e e'
  · obtain ⟨a, ha, hQ⟩ := hl
    obtain ⟨b, hb, hQ'⟩ := hr
    rw [ha, hb]
    exact .ok ⟨hQ, hQ'⟩ _

end Sparrow.Library.Parser
