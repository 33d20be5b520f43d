import Sparrow.Library.Bytes

/-!
# Reading back what was written

A parser takes bytes from the front of its input. `Reads p bytes a` says that `p` reads
`a` from exactly `bytes`, whatever follows; a format is proved by composing such facts in
the order in which its parts are written.
-/

namespace Sparrow.Library

abbrev Parser (ε α : Type) := StateT Bytes (Except ε) α

namespace Parser

variable {ε α β : Type}

/-- The next `n` bytes. -/
def take (n : ℕ) (e : ε) : Parser ε Bytes := fun src =>
  if src.length < n then .error e else .ok (src.take n, src.drop n)

/-- Fail if the test of the remaining input holds. -/
def refuse (p : Bytes → Bool) (e : ε) : Parser ε Unit := fun src => if p src then .error e else .ok ((), src)

def fail (e : ε) : Parser ε α := fun _ => .error e

/-- A parser repeated, each run fed with what the last one left. -/
def many {σ : Type} (p : σ → Parser ε (α × σ)) : ℕ → σ → Parser ε (List α × σ)
  | 0, s => Pure.pure ([], s)
  | n + 1, s => do
    let (a, s) ← p s
    let (as, s) ← many p n s
    return (a :: as, s)

/-- The parser reads `a` from exactly these bytes. -/
def Reads (p : Parser ε α) (bytes : Bytes) (a : α) : Prop := ∀ rest, p (bytes ++ rest) = .ok (a, rest)

theorem Reads.pure (a : α) : Reads (Pure.pure a : Parser ε α) [] a := fun _ => rfl

/-- **Sequencing.** -/
theorem Reads.bind {p : Parser ε α} {f : α → Parser ε β} {xs ys : Bytes} {a : α} {b : β} (hp : Reads p xs a)
    (hf : Reads (f a) ys b) : Reads (p >>= f) (xs ++ ys) b := by
  intro rest
  have h := hp (ys ++ rest)
  rw [← List.append_assoc] at h
  change (p (xs ++ ys ++ rest) >>= fun r => f r.1 r.2) = _
  rw [h]
  exact hf rest

theorem Reads.refuse {test : Bytes → Bool} {e : ε} {f : Unit → Parser ε β} {ys : Bytes} {b : β}
    (ht : ∀ rest, test (ys ++ rest) = false) (hf : Reads (f ()) ys b) :
    Reads (Parser.refuse test e >>= f) ys b := by
  intro rest
  change (Parser.refuse test e (ys ++ rest) >>= fun r => f r.1 r.2) = _
  rw [Parser.refuse, ht rest]
  exact hf rest

theorem Reads.take {n : ℕ} {bytes : Bytes} (h : bytes.length = n) (e : ε) : Reads (take n e) bytes bytes := by
  intro rest
  subst h
  simp [Parser.take]

/-- **Repetition.** `bytes` is how an element is written, `next` what its run leaves. -/
theorem Reads.many {σ : Type} {p : σ → Parser ε (α × σ)} {bytes : α → Bytes} {next : σ → α → σ}
    {G : σ → α → Prop} (hp : ∀ s a, G s a → Reads (p s) (bytes a) (a, next s a)) {as : List α} {s : σ}
    (hG : ∀ xs a ys, as = xs ++ a :: ys → G (xs.foldl next s) a) :
    Reads (many p as.length s) (as.flatMap bytes) (as, as.foldl next s) := by
  induction as generalizing s with
  | nil => exact .pure _
  | cons a as ih =>
    have hr := ih (s := next s a) fun xs b ys h => hG (a :: xs) b ys (by rw [h]; rfl)
    have ht := hr.bind (f := fun r => Pure.pure (a :: r.1, r.2)) (.pure _)
    rw [List.append_nil] at ht
    exact (hp s a (hG [] a as rfl)).bind ht

end Parser

theorem mul_length_le_flatMap {α : Type} {write : α → Bytes} {n : ℕ} {l : List α} (h : ∀ a ∈ l, n ≤ (write a).length) :
    l.length * n ≤ (l.flatMap write).length := by
  induction l with
  | nil => simp
  | cons a l ih =>
    obtain ⟨ha, hl⟩ := List.forall_mem_cons.mp h
    have := ih hl
    simp only [List.length_cons, List.flatMap_cons, List.length_append, Nat.succ_mul]
    omega

end Sparrow.Library
