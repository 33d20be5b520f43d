import Sparrow.Library.Codec
import Sparrow.Model.Scalar

/-!
# The Redis protocol

`sparrow-connectors/src/redis/resp.rs`: commands written as arrays of bulk strings, and
replies read from one buffer of fixed size, however the connection cuts them up.

## The model

A frame holds ranges of the buffer (`Frame (ℕ × ℕ)`), and is shown as the bytes they
stand for (`Frame Bytes`). A range or a subtraction that would leave the buffer is
`panicked`. The connection is the list of what each read can return at most; a read
that finds less room leaves the rest for the next one.

## What is proved

The grammar of the stream is stated apart from the parser (`Encodes`, `Fails`), gives every
stream one reading (`exists_unique_replies`), and `element` computes it. `parse` agrees with
`element` on what is buffered (`parse_refines`), and what is decided on a part of the stream is
decided on the stream (`element_append`), so that `next` reads the stream (`next_refines`). The
buffer has room whenever nothing is decided (`length_lt_capacity`).

* `fragmentation_independent` — the calls return the reading, however the stream is cut up.
-/

namespace Sparrow.Connectors.Resp

open Library Model List

/-- `MAX_LINE`. -/
def maxLine : ℕ := 4096

/-- `\r\n`. -/
def crlf : Bytes := [13, 10]

/-! ### Writing -/

/-- `digits`. -/
def digits (n : ℕ) : ℕ := if n < 10 then 1 else digits (n / 10) + 1

/-- `push_decimal`: the buffer is filled from its end. -/
def decimal (n : ℕ) : Bytes := (if n < 10 then [] else decimal (n / 10)) ++ [UInt8.ofNat (48 + n % 10)]

/-- `bulk_len`. -/
def bulkLen (len : ℕ) : ℕ := satAdd (satAdd len (digits len)) 5

/-- `array_header_len`. -/
def arrayHeaderLen (n : ℕ) : ℕ := 1 + digits n + 2

/-- `push_array_header`. -/
def arrayHeader (n : ℕ) : Bytes := 42 :: (decimal n ++ crlf)

/-- `push_bulk_header`. -/
def bulkHeader (len : ℕ) : Bytes := 36 :: (decimal len ++ crlf)

def bulk (arg : Bytes) : Bytes := bulkHeader arg.length ++ (arg ++ crlf)

/-- `command_len`. -/
def commandLen (args : List Bytes) : ℕ :=
  args.foldl (fun n a => satAdd n (bulkLen a.length)) (arrayHeaderLen args.length)

/-- What `push_command` appends. -/
def pushCommand (args : List Bytes) : Bytes := arrayHeader args.length ++ args.flatMap bulk

theorem length_decimal (n : ℕ) : (decimal n).length = digits n := by
  induction n using Nat.strong_induction_on with
  | _ n ih =>
    rw [decimal, digits]
    split_ifs with h
    · rfl
    · simp [ih (n / 10) (by omega)]

theorem length_bulk (arg : Bytes) : min (bulk arg).length usizeMax = bulkLen arg.length := by
  simp only [bulk, bulkHeader, crlf, bulkLen, satAdd, ← length_decimal, length_append, length_cons,
    length_nil]
  omega

theorem commandLen_eq (args : List Bytes) : min (pushCommand args).length usizeMax =
    min (commandLen args) usizeMax := by
  have hf : ∀ (args : List Bytes) (n : ℕ), min (n + (args.flatMap bulk).length) usizeMax =
      min (args.foldl (fun n a => satAdd n (bulkLen a.length)) n) usizeMax := by
    intro args
    induction args with
    | nil => intro n; rfl
    | cons a args ih =>
      intro n
      rw [foldl_cons, ← ih, flatMap_cons, length_append, satAdd, ← length_bulk]
      omega
  rw [commandLen, ← hf]
  simp only [pushCommand, arrayHeader, arrayHeaderLen, crlf, ← length_decimal, length_append, length_cons,
    length_nil]
  omega

/-! ### Reading -/

/-- `Frame`: one element of a reply. -/
inductive Frame (ρ : Type) where
  | simple (line : ρ)
  | error (line : ρ)
  | integer (v : ℤ)
  | bulk (body : Option ρ)
  | array (n : Option ℕ)
  deriving DecidableEq

/-- `ReadError`; the connection itself does not fail here. -/
inductive ReadError where
  | closed
  | protocol (why : String)
  | panicked
  deriving DecidableEq

/-- `Reader`. -/
structure Reader where
  buf : Bytes
  start : ℕ
  /-- `end`. -/
  stop : ℕ
  maxBulk : ℕ
  maxArray : ℕ

/-- `&s[a..b]`. -/
def slice (s : Bytes) (a b : ℕ) : Except ReadError Bytes :=
  if a ≤ b ∧ b ≤ s.length then .ok ((s.take b).drop a) else .error .panicked

/-- `a - b`. -/
def sub (a b : ℕ) : Except ReadError ℕ := if b ≤ a then .ok (a - b) else .error .panicked

def crlfAt : Bytes → Option ℕ
  | [] => none
  | b :: s => if b = 13 ∧ s.head? = some 10 then some 0 else (crlfAt s).map (· + 1)

/-- One digit more; if the sum fits, the product does. -/
def addDigit (v : ℕ) (d : UInt8) : Except ReadError ℕ :=
  if v * 10 + (d.toNat - 48) < 2 ^ 63 then .ok (v * 10 + (d.toNat - 48)) else .error (.protocol "invalid Redis integer")

/-- `parse_i64`. -/
def parseI64 (line : Bytes) : Except ReadError ℤ :=
  let neg : Bool := line.head? = some 45
  let digits := if neg then line.tail else line
  if digits = [] ∨ digits.length > 19 ∨ ¬ digits.all (fun d => 48 ≤ d ∧ d ≤ 57) then
    .error (.protocol "invalid Redis integer")
  else Except.map (fun v : ℕ => if neg then -(v : ℤ) else v) (digits.foldlM addDigit 0)

/-- The length a bulk string announces; `none` for the null one. -/
def bulkLength (maxBulk : ℕ) (line : Bytes) : Except ReadError (Option ℕ) := do
  let n ← parseI64 line
  if n = -1 then return none
  else if n < 0 then .error (.protocol "negative Redis bulk length")
  else if n.toNat > maxBulk then .error (.protocol "Redis bulk reply exceeds its limit")
  else return some n.toNat

/-- The frames that end with their line, which is `line` and stands at `place`. -/
def lineFrame {ρ : Type} (maxArray : ℕ) (kind : UInt8) (line : Bytes) (place : ρ) : Except ReadError (Frame ρ) := do
  if kind = 43 then return .simple place
  else if kind = 45 then return .error place
  else if kind = 58 then return .integer (← parseI64 line)
  else if kind = 42 then
    let n ← parseI64 line
    if n = -1 then return .array none
    else if n < 0 ∨ n.toNat > maxArray then .error (.protocol "Redis array reply exceeds its limit")
    else return .array (some n.toNat)
  else .error (.protocol "unexpected Redis reply type (RESP2 only)")

def Frame.shown (buf : Bytes) : Frame (ℕ × ℕ) → Except ReadError (Frame Bytes)
  | .simple line => return .simple (← slice buf line.1 line.2)
  | .error line => return .error (← slice buf line.1 line.2)
  | .integer v => .ok (.integer v)
  | .bulk none => .ok (.bulk none)
  | .bulk (some body) => return .bulk (some (← slice buf body.1 body.2))
  | .array n => .ok (.array n)

abbrev Chunk := {c : Bytes // c ≠ []}

def stream (io : List Chunk) : Bytes := io.flatMap (·.1)

/-- `io.read` into a buffer of `free` bytes. -/
def read (free : ℕ) : List Chunk → Bytes × List Chunk
  | [] => ([], [])
  | c :: io =>
    if h : free < c.1.length then (c.1.take free, ⟨c.1.drop free, by simp; omega⟩ :: io) else (c.1, io)

theorem read_stream (free : ℕ) (io : List Chunk) : (read free io).1 ++ stream (read free io).2 = stream io := by
  cases io with
  | nil => rfl
  | cons c io =>
    rw [read]
    split_ifs with h
    · simp [stream, ← append_assoc]
    · simp [stream]

theorem eq_nil_of_read {free : ℕ} (hf : 0 < free) {io : List Chunk} (h : (read free io).1 = []) : io = [] := by
  cases io with
  | nil => rfl
  | cons c io =>
    rw [read] at h
    split_ifs at h
    · exact ((List.take_eq_nil_iff.mp h).elim (by omega) c.2).elim
    · exact absurd h c.2

theorem length_read (free : ℕ) (io : List Chunk) : (read free io).1.length ≤ free := by
  cases io with
  | nil => simp [read]
  | cons c io =>
    rw [read]
    split_ifs with h
    · simp
    · simpa using h

namespace Reader

/-- `Reader::capacity_for`. -/
def capacityFor (maxBulk : ℕ) : ℕ := satAdd (satAdd maxBulk maxLine) 64

/-- `Reader::new`. -/
def new (maxBulk maxArray : UInt64) : Reader :=
  { buf := .replicate (capacityFor maxBulk.toNat) 0, start := 0, stop := 0
    maxBulk := maxBulk.toNat, maxArray := maxArray.toNat }

variable (r : Reader)

/-- The end of `parse`, at the CRLF behind `eol` bytes. -/
def parseLine (kind : UInt8) (eol : ℕ) : Except ReadError (Option (Frame (ℕ × ℕ)) × Reader) := do
  let line ← slice r.buf (r.start + 1) (r.start + 1 + eol)
  let after := r.start + 1 + eol + 2
  if kind = 36 then
    match ← bulkLength r.maxBulk line with
    | none => return (some (.bulk none), { r with start := after })
    | some n =>
      if (← sub r.stop after) < n + 2 then return (none, r)
      else if (← slice r.buf (after + n) (after + n + 2)) ≠ crlf then
        .error (.protocol "Redis bulk reply not CRLF-terminated")
      else return (some (.bulk (some (after, after + n))), { r with start := after + n + 2 })
  else
    let frame ← lineFrame r.maxArray kind line (r.start + 1, r.start + 1 + eol)
    return (some frame, { r with start := after })

/-- `parse`: `none` if more bytes are needed. -/
def parse : Except ReadError (Option (Frame (ℕ × ℕ)) × Reader) := do
  let data ← slice r.buf r.start r.stop
  match data.head? with
  | none => return (none, r)
  | some kind =>
    let window ← slice data 1 (min data.length (maxLine + 3))
    match crlfAt window with
    | none =>
      if data.length ≥ maxLine + 3 then .error (.protocol "Redis reply line exceeds 4096 bytes")
      else return (none, r)
    | some eol => r.parseLine kind eol

/-- What is unparsed moves to the front of the buffer. -/
def compact : Except ReadError Reader := do
  if r.start > 0 then
    let data ← slice r.buf r.start r.stop
    return { r with buf := data ++ r.buf.drop data.length, start := 0, stop := ← sub r.stop r.start }
  else return r

/-- `fill`. -/
def fill (io : List Chunk) : Except ReadError (Reader × List Chunk) := do
  let r ← r.compact
  if r.stop = r.buf.length then .error (.protocol "Redis reply exceeds the read buffer") else
  let room ← slice r.buf r.stop r.buf.length
  let (bytes, io) := read room.length io
  if bytes.length = 0 then .error .closed else
  return ({ r with buf := r.buf.take r.stop ++ (bytes ++ r.buf.drop (r.stop + bytes.length))
                   stop := r.stop + bytes.length }, io)

theorem fill_shrinks {r r' : Reader} {io io' : List Chunk} (h : r.fill io = .ok (r', io')) :
    (stream io').length < (stream io).length := by
  unfold fill at h
  cases hr : r.compact with
  | error e => simp [hr, bind, Except.bind] at h
  | ok r₁ =>
    simp only [hr, bind, Except.bind] at h
    split_ifs at h with hf
    cases hro : slice r₁.buf r₁.stop r₁.buf.length with
    | error e => simp [hro] at h
    | ok room =>
      simp only [hro] at h
      split_ifs at h with hre
      obtain ⟨-, rfl⟩ := Prod.mk.inj (Except.ok.inj h)
      rw [← read_stream room.length io, length_append]
      omega

/-- `next`. -/
def next (r : Reader) (io : List Chunk) : Except ReadError (Frame (ℕ × ℕ) × Reader × List Chunk) :=
  match r.parse with
  | .error e => .error e
  | .ok (some frame, r) => .ok (frame, r, io)
  | .ok (none, r) =>
    match _hfill : r.fill io with
    | .error e => .error e
    | .ok (r', io') => next r' io'
termination_by (stream io).length
decreasing_by exact fill_shrinks _hfill

/-- What the first `n` calls of `next` return, up to the first error, each frame shown
before the next call. -/
def results (r : Reader) (io : List Chunk) : ℕ → List (Except ReadError (Frame Bytes))
  | 0 => []
  | n + 1 =>
    match r.next io with
    | .error e => [.error e]
    | .ok (frame, r', io') =>
      match frame.shown r'.buf with
      | .error e => [.error e]
      | .ok frame => .ok frame :: results r' io' n

end Reader

/-! ### The grammar

What a stream says is stated apart from the reader. `Encodes` gives the bytes of each element, and `Fails` what can
stand in a stream instead of one. -/

/-- What decimal digits stand for, after those that stand for `m`. -/
def value (m : ℕ) (ds : Bytes) : ℕ := ds.foldl (fun v d => v * 10 + (d.toNat - 48)) m

/-- The digits of a number: at most 19, for a value below `2 ^ 63`. -/
structure Digits (ds : Bytes) : Prop where
  nonempty : ds ≠ []
  decimal : ∀ d ∈ ds, 48 ≤ d ∧ d ≤ 57
  short : ds.length ≤ 19
  bounded : value 0 ds < 2 ^ 63

/-- The lines that are numbers. Here the reader has limits of its own: `+1` and `-9223372036854775808`, which RESP2 has
as well, are not among them. -/
inductive Number : Bytes → ℤ → Prop
  /-- Digits alone. -/
  | plain {ds : Bytes} (h : Digits ds) : Number ds (value 0 ds)
  /-- `-` and digits. -/
  | minus {ds : Bytes} (h : Digits ds) : Number (45 :: ds) (-value 0 ds)

/-- What can stand before the CRLF that ends a line. -/
structure Line (line : Bytes) : Prop where
  plain : ¬ crlf <:+: line
  short : line.length ≤ maxLine

section

variable (maxBulk maxArray : ℕ)

/-- An element of a reply, and the bytes it is sent as. -/
inductive Encodes : Frame Bytes → Bytes → Prop
  /-- `+line`. -/
  | simple {line : Bytes} (h : Line line) : Encodes (.simple line) (43 :: (line ++ crlf))
  /-- `-line`. -/
  | error {line : Bytes} (h : Line line) : Encodes (.error line) (45 :: (line ++ crlf))
  /-- `:number`. -/
  | integer {line : Bytes} {v : ℤ} (h : Number line v) : Encodes (.integer v) (58 :: (line ++ crlf))
  /-- `$-1`. -/
  | nullBulk {line : Bytes} (h : Number line (-1)) : Encodes (.bulk none) (36 :: (line ++ crlf))
  /-- `$length`, and the body on a line of its own. -/
  | bulk {line body : Bytes} (h : Number line body.length) (hmax : body.length ≤ maxBulk) :
      Encodes (.bulk (some body)) (36 :: (line ++ crlf) ++ (body ++ crlf))
  /-- `*-1`. -/
  | nullArray {line : Bytes} (h : Number line (-1)) : Encodes (.array none) (42 :: (line ++ crlf))
  /-- `*length`; the elements follow one by one. -/
  | array {line : Bytes} {n : ℕ} (h : Number line n) (hmax : n ≤ maxArray) :
      Encodes (.array (some n)) (42 :: (line ++ crlf))

/-- A stream that does not begin with an element, and the error it ends with. -/
inductive Fails : Bytes → ReadError → Prop
  /-- The stream ends within a line that is not too long. -/
  | cutLine {s : Bytes} (h : ¬ crlf <:+: s.tail) (hs : s.length < maxLine + 3) : Fails s .closed
  /-- The stream ends within a body that is not too long. -/
  | cutBody {line part : Bytes} {n : ℕ} (h : Number line n) (hmax : n ≤ maxBulk) (hs : part.length < n + 2) :
      Fails (36 :: (line ++ crlf) ++ part) .closed
  /-- No line ends within 4096 bytes. -/
  | long {kind : UInt8} {s : Bytes} (h : ¬ crlf <:+: s.take (maxLine + 2)) (hs : maxLine + 2 ≤ s.length) :
      Fails (kind :: s) (.protocol "Redis reply line exceeds 4096 bytes")
  /-- Elements of no other kind are known. -/
  | unknown {kind : UInt8} {line rest : Bytes} (h : kind ∉ [43, 45, 58, 36, 42]) (hl : Line line) :
      Fails (kind :: (line ++ crlf) ++ rest) (.protocol "unexpected Redis reply type (RESP2 only)")
  /-- There is no number where one is needed. -/
  | number {kind : UInt8} {line rest : Bytes} (h : kind ∈ [58, 36, 42]) (hl : Line line) (hn : ∀ n, ¬ Number line n) :
      Fails (kind :: (line ++ crlf) ++ rest) (.protocol "invalid Redis integer")
  /-- A negative length. -/
  | negative {line rest : Bytes} {n : ℤ} (h : Number line n) (hn : n < -1) :
      Fails (36 :: (line ++ crlf) ++ rest) (.protocol "negative Redis bulk length")
  /-- A body beyond the limit. -/
  | bulkLimit {line rest : Bytes} {n : ℕ} (h : Number line n) (hn : maxBulk < n) :
      Fails (36 :: (line ++ crlf) ++ rest) (.protocol "Redis bulk reply exceeds its limit")
  /-- A body that goes on after its length. -/
  | unterminated {line body rest : Bytes} (h : Number line body.length) (hmax : body.length ≤ maxBulk)
      (hs : 2 ≤ rest.length) (hend : rest.take 2 ≠ crlf) :
      Fails (36 :: (line ++ crlf) ++ (body ++ rest)) (.protocol "Redis bulk reply not CRLF-terminated")
  /-- A negative number of elements, or one beyond the limit. -/
  | arrayLimit {line rest : Bytes} {n : ℤ} (h : Number line n) (hn : n < -1 ∨ (maxArray : ℤ) < n) :
      Fails (42 :: (line ++ crlf) ++ rest) (.protocol "Redis array reply exceeds its limit")

/-- A stream read from left to right: its elements, and the error it ends with. -/
inductive Replies : Bytes → List (Frame Bytes) → ReadError → Prop
  /-- There is no element left. -/
  | ends {s : Bytes} {e : ReadError} (h : Fails maxBulk maxArray s e) : Replies s [] e
  /-- An element, and the rest. -/
  | frame {f : Frame Bytes} {bytes rest : Bytes} {fs : List (Frame Bytes)} {e : ReadError}
      (h : Encodes maxBulk maxArray f bytes) (hrest : Replies rest fs e) :
      Replies (bytes ++ rest) (f :: fs) e

/-- What the calls of `next` are to return: the elements, and the error. -/
def answers (fs : List (Frame Bytes)) (e : ReadError) : List (Except ReadError (Frame Bytes)) :=
  fs.map .ok ++ [.error e]

/-! ### The grammar as a function -/

/-- What a complete line stands for, and the rest; `none` if the body is not all there. -/
def payload (kind : UInt8) (line rest : Bytes) :
    Except ReadError (Option (Frame Bytes × Bytes)) := do
  if kind = 36 then
    match ← bulkLength maxBulk line with
    | none => return some (.bulk none, rest)
    | some n =>
      if rest.length < n + 2 then return none
      else if (rest.drop n).take 2 ≠ crlf then .error (.protocol "Redis bulk reply not CRLF-terminated")
      else return some (.bulk (some (rest.take n)), rest.drop (n + 2))
  else return some (← lineFrame maxArray kind line line, rest)

/-- The first element of a stream, and the rest; `none` if it is not all there. -/
def element : Bytes → Except ReadError (Option (Frame Bytes × Bytes))
  | [] => .ok none
  | kind :: s =>
    match crlfAt s with
    | none => if s.length < maxLine + 2 then .ok none else .error (.protocol "Redis reply line exceeds 4096 bytes")
    | some eol =>
      if maxLine < eol then .error (.protocol "Redis reply line exceeds 4096 bytes")
      else payload maxBulk maxArray kind (s.take eol) (s.drop (eol + 2))

/-- The first `n` elements of a stream, up to the first error; a stream that ends within
an element is closed. -/
def replies : ℕ → Bytes → List (Except ReadError (Frame Bytes))
  | 0, _ => []
  | n + 1, s =>
    match element maxBulk maxArray s with
    | .error e => [.error e]
    | .ok none => [.error .closed]
    | .ok (some (frame, rest)) => .ok frame :: replies n rest

end

/-! ### Numbers -/

theorem le_value (m : ℕ) (ds : Bytes) : m ≤ value m ds := by
  induction ds generalizing m with
  | nil => exact le_rfl
  | cons d ds ih => exact le_trans (by omega) (ih (m * 10 + (d.toNat - 48)))

theorem foldlM_addDigit (ds : Bytes) {m : ℕ} (hm : m < 2 ^ 63) : ds.foldlM addDigit m =
    if value m ds < 2 ^ 63 then .ok (value m ds) else .error (.protocol "invalid Redis integer") := by
  induction ds generalizing m with
  | nil => exact (if_pos hm).symm
  | cons d ds ih =>
    rw [foldlM_cons, addDigit]
    by_cases hd : m * 10 + (d.toNat - 48) < 2 ^ 63
    · rw [if_pos hd]
      exact ih hd
    · have hle : m * 10 + (d.toNat - 48) ≤ value m (d :: ds) := le_value _ ds
      rw [if_neg hd, if_neg (by omega)]
      rfl

variable {s line : Bytes}

theorem Number.parseI64 {n : ℤ} (h : Number line n) : parseI64 line = .ok n := by
  have hd : ∀ {ds}, Digits ds → ¬ (ds = [] ∨ ds.length > 19 ∨ ¬ ds.all (fun d => 48 ≤ d ∧ d ≤ 57)) := by
    intro ds h
    simpa using ⟨h.nonempty, h.short, h.decimal⟩
  cases h with
  | plain h =>
    have hn : line.head? ≠ some 45 := fun h' => absurd (h.decimal 45 (mem_of_mem_head? h')) (by decide)
    simp only [Resp.parseI64, hn, decide_false, Bool.false_eq_true, if_false]
    rw [if_neg (hd h), foldlM_addDigit _ (by decide), if_pos h.bounded]
    rfl
  | minus h =>
    simp only [Resp.parseI64, head?_cons, decide_true, if_true, tail_cons]
    rw [if_neg (hd h), foldlM_addDigit _ (by decide), if_pos h.bounded]
    rfl

theorem number_or_refused (line : Bytes) :
    (∃ n, Number line n) ∨ parseI64 line = .error (.protocol "invalid Redis integer") ∧ ∀ n, ¬ Number line n := by
  by_cases h : ∃ n, Number line n
  · exact .inl h
  refine .inr ⟨?_, not_exists.mp h⟩
  have hdi : ∀ ds, (ds = [] ∨ ds.length > 19 ∨ ¬ ds.all (fun d => 48 ≤ d ∧ d ≤ 57)) ∨
      ¬ value 0 ds < 2 ^ 63 ∨ Digits ds := by
    intro ds
    by_contra hd
    obtain ⟨hd, hv⟩ := not_or.mp hd
    obtain ⟨hv, hn⟩ := not_or.mp hv
    simp only [not_or, not_lt, not_not, gt_iff_lt, all_eq_true, decide_eq_true_eq] at hd
    exact hn ⟨hd.1, hd.2.2, hd.2.1, not_not.mp hv⟩
  have hr : ∀ (f : ℕ → ℤ) (ds : Bytes), ¬ Digits ds →
      (if ds = [] ∨ ds.length > 19 ∨ ¬ ds.all (fun d => 48 ≤ d ∧ d ≤ 57) then .error (.protocol "invalid Redis integer")
        else Except.map f (ds.foldlM addDigit 0)) = .error (.protocol "invalid Redis integer") := by
    intro f ds hn
    obtain hb | hv | hd := hdi ds
    · exact if_pos hb
    · rw [foldlM_addDigit _ (by decide), if_neg hv]
      exact ite_self _
    · exact absurd hd hn
  unfold Resp.parseI64
  by_cases hne : line.head? = some 45
  · obtain ⟨ds, rfl⟩ := head?_eq_some_iff.mp hne
    exact hr _ ds fun hd => h ⟨_, .minus hd⟩
  · simp only [hne, decide_false, Bool.false_eq_true, if_false]
    exact hr _ line fun hd => h ⟨_, .plain hd⟩

/-! ### Lines -/

theorem crlfAt_take (s : Bytes) (k : ℕ) : crlfAt (s.take k) = (crlfAt s).filter (· + 2 ≤ k) := by
  induction s generalizing k with
  | nil => simp [crlfAt]
  | cons b s ih =>
    cases k with
    | zero => cases h : crlfAt (b :: s) <;> simp [crlfAt]
    | succ k =>
      rw [take_succ_cons, crlfAt, crlfAt, ih]
      by_cases hb : b = 13 ∧ s.head? = some 10
      · rw [if_pos hb]
        cases k with
        | zero => cases h : crlfAt s <;> simp
        | succ k => cases s <;> simp_all [Option.filter]
      · have hb' : ¬ (b = 13 ∧ (s.take k).head? = some 10) := by
          cases k <;> cases s <;> simp_all
        rw [if_neg hb, if_neg hb']
        cases crlfAt s with
        | none => rfl
        | some i => by_cases hi : i + 2 ≤ k <;> simp [Option.filter, hi]

theorem crlfAt_append (s t : Bytes) : crlfAt s = (crlfAt (s ++ t)).filter (· + 2 ≤ s.length) := by
  simpa using crlfAt_take (s ++ t) s.length

theorem crlfAt_le {eol : ℕ} (h : crlfAt s = some eol) : eol + 2 ≤ s.length := by
  have := crlfAt_append s []
  rw [append_nil, h] at this
  simpa [Option.filter] using this

theorem crlfAt_eq_none : crlfAt s = none ↔ ¬ crlf <:+: s := by
  induction s with
  | nil => simp [crlfAt, crlf]
  | cons b s ih =>
    have hb : crlf <+: b :: s ↔ b = 13 ∧ s.head? = some 10 := by
      cases s <;> simp [crlf, cons_prefix_cons, eq_comm]
    rw [infix_cons_iff, hb, crlfAt]
    split_ifs with hat <;> simp [hat, ih]

theorem crlfAt_split {eol : ℕ} (h : crlfAt s = some eol) :
    s = s.take eol ++ crlf ++ s.drop (eol + 2) ∧ ¬ crlf <:+: s.take eol := by
  constructor
  · induction s generalizing eol with
    | nil => cases h
    | cons b s ih =>
      rw [crlfAt] at h
      split_ifs at h with hb
      · cases h
        obtain ⟨rfl, hs⟩ := hb
        obtain ⟨t, rfl⟩ := head?_eq_some_iff.mp hs
        rfl
      · obtain ⟨i, hi, rfl⟩ := Option.map_eq_some_iff.mp h
        exact congrArg (b :: ·) (ih hi)
  · rw [← crlfAt_eq_none, crlfAt_take, h]
    simp [Option.filter]

theorem crlfAt_line (h : ¬ crlf <:+: line) (rest : Bytes) :
    crlfAt (line ++ crlf ++ rest) = some line.length := by
  induction line with
  | nil => rfl
  | cons d line ih =>
    have hd : ¬ (d = 13 ∧ (line ++ crlf ++ rest).head? = some 10) := by
      rintro ⟨rfl, hh⟩
      cases line with
      | nil => simp [crlf] at hh
      | cons c line =>
        obtain rfl : c = 10 := by simpa using hh
        exact h ⟨[], line, rfl⟩
    rw [cons_append, cons_append, crlfAt, if_neg hd, ih fun h' => h (h'.trans (suffix_cons d line).isInfix)]
    rfl

theorem Number.bounds {n : ℤ} (h : Number line n) : Line line ∧ line.length ≤ 20 ∧ n.toNat < 2 ^ 63 := by
  have hl : ∀ {line : Bytes}, (∀ d ∈ line, d ≠ 13) → ¬ crlf <:+: line := fun hcr hin =>
    hcr 13 (hin.subset (by simp [crlf])) rfl
  have hdi : ∀ {ds : Bytes}, Digits ds → ∀ d ∈ ds, d ≠ 13 := by
    rintro ds h d hd rfl
    exact absurd (h.decimal 13 hd) (by decide)
  have hm : 20 ≤ maxLine := by decide
  cases h with
  | plain h =>
    have := h.short
    exact ⟨⟨hl (hdi h), by omega⟩, by omega, by simpa using h.bounded⟩
  | minus h =>
    have := h.short
    refine ⟨⟨hl ?_, by rw [length_cons]; omega⟩, by rw [length_cons]; omega, by omega⟩
    simpa using hdi h

/-! ### The function is the grammar -/

section

variable {maxBulk maxArray : ℕ} {e : ReadError} {fs : List (Frame Bytes)}

theorem element_line (h : Line line) (kind : UInt8) (rest : Bytes) :
    element maxBulk maxArray (kind :: (line ++ crlf) ++ rest) = payload maxBulk maxArray kind line rest := by
  rw [cons_append, element, crlfAt_line h.plain]
  dsimp only
  rw [if_neg (not_lt.mpr h.short), append_assoc, take_left, ← drop_drop, drop_left]
  rfl

theorem Number.bulkLength {n : ℕ} (h : Number line n) (hm : n ≤ maxBulk) :
    bulkLength maxBulk line = .ok (some n) := by
  simp only [Resp.bulkLength, h.parseI64, bind, Except.bind, Int.toNat_natCast]
  rw [if_neg (by omega), if_neg (by omega), if_neg (by omega)]
  rfl

theorem Encodes.element {f : Frame Bytes} {bytes : Bytes} (h : Encodes maxBulk maxArray f bytes) (rest : Bytes) :
    element maxBulk maxArray (bytes ++ rest) = .ok (some (f, rest)) := by
  cases h with
  | simple h => exact element_line h 43 rest
  | error h => exact element_line h 45 rest
  | integer h =>
    rw [element_line h.bounds.1, payload, lineFrame, h.parseI64]
    rfl
  | nullBulk h =>
    rw [element_line h.bounds.1, payload, bulkLength, h.parseI64]
    rfl
  | @bulk line body h hm =>
    rw [append_assoc, element_line h.bounds.1, payload, h.bulkLength hm]
    have hd : ((body ++ crlf) ++ rest).drop body.length = crlf ++ rest := by rw [append_assoc, drop_left]
    simp only [if_true, bind, Except.bind, ← drop_drop, hd]
    rw [if_neg (by simp [crlf]), if_neg (by simp [crlf]), append_assoc, take_left]
    rfl
  | nullArray h =>
    rw [element_line h.bounds.1, payload, lineFrame, h.parseI64]
    rfl
  | array h hm =>
    rw [element_line h.bounds.1, payload, lineFrame, h.parseI64]
    simp only [bind, Except.bind, Int.toNat_natCast]
    rw [if_neg (by decide), if_neg (by decide), if_neg (by decide), if_neg (by decide),
      if_pos trivial, if_neg (by omega), if_neg (by omega)]
    rfl

theorem Fails.element (h : Fails maxBulk maxArray s e) :
    element maxBulk maxArray s = if e = .closed then .ok none else .error e := by
  cases h with
  | cutLine h hs =>
    cases s with
    | nil => rfl
    | cons kind s =>
      have hn : crlfAt s = none := crlfAt_eq_none.mpr h
      rw [Resp.element, hn]
      exact if_pos (by simpa using hs)
  | cutBody h hm hs =>
    rw [element_line h.bounds.1, payload, h.bulkLength hm]
    exact if_pos hs
  | @long kind s h hs =>
    rw [← crlfAt_eq_none, crlfAt_take] at h
    rw [Resp.element]
    cases hc : crlfAt s with
    | none => exact if_neg (by omega)
    | some eol =>
      have hl : maxLine < eol := by simpa [hc, Option.filter] using h
      exact if_pos hl
  | @unknown kind line rest h hl =>
    simp only [mem_cons, not_mem_nil, or_false, not_or] at h
    obtain ⟨h43, h45, h58, h36, h42⟩ := h
    rw [element_line hl, payload, lineFrame, if_neg h36, if_neg h43, if_neg h45, if_neg h58, if_neg h42]
    rfl
  | @number kind line rest h hl hn =>
    have hp := (number_or_refused line).resolve_left (not_exists.mpr hn)
    rw [element_line hl, payload, lineFrame, bulkLength, hp.1]
    simp only [mem_cons, not_mem_nil, or_false] at h
    obtain rfl | rfl | rfl := h <;> rfl
  | negative h hn =>
    rw [element_line h.bounds.1, payload, bulkLength, h.parseI64]
    simp only [if_true, bind, Except.bind]
    rw [if_neg (by omega), if_pos (by omega)]
    rfl
  | bulkLimit h hn =>
    rw [element_line h.bounds.1, payload, bulkLength, h.parseI64]
    simp only [if_true, bind, Except.bind, Int.toNat_natCast]
    rw [if_neg (by omega), if_neg (by omega), if_pos hn]
    rfl
  | unterminated h hm hs he =>
    rw [element_line h.bounds.1, payload, h.bulkLength hm]
    simp only [if_true, bind, Except.bind, drop_left]
    rw [if_neg (by rw [length_append]; omega), if_pos he]
    rfl
  | arrayLimit h hn =>
    rw [element_line h.bounds.1, payload, lineFrame, h.parseI64]
    simp only [bind, Except.bind]
    rw [if_neg (by decide), if_neg (by decide), if_neg (by decide), if_neg (by decide),
      if_pos trivial, if_neg (by omega), if_pos (by omega)]
    rfl

/-- **The rules cover every stream.** -/
theorem encodes_or_fails (maxBulk maxArray : ℕ) (s : Bytes) :
    (∃ f bytes rest, Encodes maxBulk maxArray f bytes ∧ s = bytes ++ rest) ∨ ∃ e, Fails maxBulk maxArray s e := by
  cases s with
  | nil => exact .inr ⟨_, .cutLine (by simp [crlf]) (by simp)⟩
  | cons kind s =>
    cases hc : crlfAt s with
    | none =>
      have hn := crlfAt_eq_none.mp hc
      by_cases hs : s.length < maxLine + 2
      · exact .inr ⟨_, .cutLine hn (by simpa using hs)⟩
      · exact .inr ⟨_, .long (fun h => hn (h.trans ( take_prefix _ _).isInfix)) (not_lt.mp hs)⟩
    | some eol =>
      have hle := crlfAt_le hc
      obtain ⟨heq, hp⟩ := crlfAt_split hc
      by_cases hl : maxLine < eol
      · refine .inr ⟨_, .long ?_ (by omega)⟩
        rw [← crlfAt_eq_none, crlfAt_take, hc]
        simpa [Option.filter] using hl
      have hli : Line (s.take eol) := ⟨hp, by rw [length_take]; omega⟩
      generalize s.take eol = line at heq hli
      generalize s.drop (eol + 2) = rest at heq
      subst heq
      -- a kind that needs a number gets one, or the stream fails there
      have hnu : kind ∈ [58, 36, 42] → (∃ e, Fails maxBulk maxArray (kind :: (line ++ crlf) ++ rest) e) ∨
          ∃ n, Number line n := fun hk =>
        (number_or_refused line).elim .inr fun h => .inl ⟨_, .number hk hli h.2⟩
      by_cases hk : kind ∉ [43, 45, 58, 36, 42]
      · exact .inr ⟨_, .unknown hk hli⟩
      simp only [mem_cons, not_mem_nil, or_false, not_not] at hk
      obtain rfl | rfl | rfl | rfl | rfl := hk
      · exact .inl ⟨_, _, rest, .simple hli, rfl⟩
      · exact .inl ⟨_, _, rest, .error hli, rfl⟩
      · obtain he | ⟨n, hn⟩ := hnu (by simp)
        · exact .inr he
        · exact .inl ⟨_, _, rest, .integer hn, rfl⟩
      · obtain he | ⟨n, hn⟩ := hnu (by simp)
        · exact .inr he
        obtain hne | rfl | hnn : n < -1 ∨ n = -1 ∨ 0 ≤ n := by omega
        · exact .inr ⟨_, .negative hn hne⟩
        · exact .inl ⟨_, _, rest, .nullBulk hn, rfl⟩
        obtain ⟨k, rfl⟩ := Int.eq_ofNat_of_zero_le hnn
        by_cases hm : maxBulk < k
        · exact .inr ⟨_, .bulkLimit hn hm⟩
        by_cases hs : rest.length < k + 2
        · exact .inr ⟨_, .cutBody hn (not_lt.mp hm) hs⟩
        have hb : (rest.take k).length = k := by rw [length_take]; omega
        have hn' : Number line (rest.take k).length := by rwa [hb]
        by_cases hen : (rest.drop k).take 2 = crlf
        · have hr : rest = rest.take k ++ crlf ++ rest.drop (k + 2) := by
            rw [← hen, append_assoc, ← drop_drop, take_append_drop, take_append_drop]
          exact .inl ⟨_, _, rest.drop (k + 2), .bulk hn' (by omega),
            (congrArg (36 :: (line ++ crlf) ++ ·) hr).trans (append_assoc ..).symm⟩
        · have hf : Fails maxBulk maxArray _ _ := .unterminated hn' (by omega) (by rw [length_drop]; omega) hen
          rw [take_append_drop] at hf
          exact .inr ⟨_, hf⟩
      · obtain he | ⟨n, hn⟩ := hnu (by simp)
        · exact .inr he
        by_cases hlim : n < -1 ∨ (maxArray : ℤ) < n
        · exact .inr ⟨_, .arrayLimit hn hlim⟩
        obtain rfl | hnn : n = -1 ∨ 0 ≤ n := by omega
        · exact .inl ⟨_, _, rest, .nullArray hn, rfl⟩
        obtain ⟨k, rfl⟩ := Int.eq_ofNat_of_zero_le hnn
        exact .inl ⟨_, _, rest, .array hn (by omega), rfl⟩

/-- What has gone wrong stays so, whatever follows. -/
theorem Fails.append (h : Fails maxBulk maxArray s e) (he : e ≠ .closed) (t : Bytes) :
    Fails maxBulk maxArray (s ++ t) e := by
  cases h with
  | cutLine | cutBody => exact absurd rfl he
  | @long kind s h hs =>
    have hlen : maxLine + 2 ≤ (s ++ t).length := by rw [length_append]; omega
    have ht : (s ++ t).take (maxLine + 2) = s.take (maxLine + 2) := take_append_of_le_length hs
    rw [← ht] at h
    exact .long h hlen
  | unknown h hl =>
    rw [append_assoc]
    exact .unknown h hl
  | number h hl hn =>
    rw [append_assoc]
    exact .number h hl hn
  | negative h hn =>
    rw [append_assoc]
    exact .negative h hn
  | bulkLimit h hn =>
    rw [append_assoc]
    exact .bulkLimit h hn
  | unterminated h hm hs hen =>
    rw [append_assoc, append_assoc]
    refine .unterminated h hm (by rw [length_append]; omega) ?_
    rwa [take_append_of_le_length hs]
  | arrayLimit h hn =>
    rw [append_assoc]
    exact .arrayLimit h hn

theorem element_append (h : element maxBulk maxArray s ≠ .ok none) (t : Bytes) :
    element maxBulk maxArray (s ++ t) = (element maxBulk maxArray s).map (Option.map fun p => (p.1, p.2 ++ t)) := by
  obtain ⟨f, bytes, rest, hf, rfl⟩ | ⟨e, hs⟩ := encodes_or_fails maxBulk maxArray s
  · rw [append_assoc, hf.element, hf.element]
    rfl
  · rw [hs.element] at h ⊢
    by_cases he : e = .closed
    · exact absurd (if_pos he) h
    · rw [(hs.append he t).element, if_neg he]
      rfl

/-- **The buffer has room for what is undecided.** -/
theorem length_lt_capacity (hm : maxBulk ≤ usizeMax) (h : element maxBulk maxArray s = .ok none) :
    s.length < Reader.capacityFor maxBulk := by
  unfold Reader.capacityFor satAdd
  obtain ⟨f, bytes, rest, hf, rfl⟩ | ⟨e, hs⟩ := encodes_or_fails maxBulk maxArray s
  · cases h.symm.trans (hf.element rest)
  · have hc := h.symm.trans hs.element
    split_ifs at hc with he
    subst he
    unfold usizeMax at hm ⊢
    cases hs with
    | cutLine _ hs =>
      unfold maxLine at hs ⊢
      omega
    | cutBody hn hle hs =>
      obtain ⟨-, hl, hb⟩ := hn.bounds
      simp only [cons_append, length_cons, length_append, crlf, length_nil, Int.toNat_natCast] at hb ⊢
      unfold maxLine
      omega

/-- What may end a stream: never the buffer. -/
abbrev ReadError.Expected (e : ReadError) : Prop := e ≠ .panicked ∧ e ≠ .protocol "Redis reply exceeds the read buffer"

theorem Replies.expected (h : Replies maxBulk maxArray s fs e) :
    e.Expected := by
  induction h with
  | ends h => cases h <;> decide
  | frame _ _ ih => exact ih

theorem Replies.replies (h : Replies maxBulk maxArray s fs e) (n : ℕ) :
    replies maxBulk maxArray n s = (answers fs e).take n := by
  induction h generalizing n with
  | ends h =>
    cases n with
    | zero => rfl
    | succ n =>
      rw [Resp.replies, h.element]
      split_ifs with he
      · simp [answers, he]
      · simp [answers]
  | frame h _ ih =>
    cases n with
    | zero => rfl
    | succ n =>
      rw [Resp.replies, h.element]
      simp [answers, ih n]

/-- **Every stream is read in one way.** -/
theorem exists_unique_replies (maxBulk maxArray : ℕ) (s : Bytes) :
    ∃ fs e, ∀ fs' e', Replies maxBulk maxArray s fs' e' ↔ fs' = fs ∧ e' = e := by
  obtain ⟨fs, e, h⟩ : ∃ fs e, Replies maxBulk maxArray s fs e := by
    induction hn : s.length using Nat.strong_induction_on generalizing s with
    | _ n ih =>
      obtain ⟨f, bytes, rest, hf, rfl⟩ | ⟨e, hs⟩ := encodes_or_fails maxBulk maxArray s
      · have hp : 0 < bytes.length := by cases hf <;> simp
        obtain ⟨fs, e, hr⟩ := ih rest.length (by rw [← hn, length_append]; omega) rest rfl
        exact ⟨_, e, .frame hf hr⟩
      · exact ⟨[], e, .ends hs⟩
  refine ⟨fs, e, fun fs' e' => ⟨fun h' => ?_, ?_⟩⟩
  · -- both are what the function says, read to the end
    have heq := (h.replies (fs.length + fs'.length + 1)).symm.trans (h'.replies _)
    rw [take_of_length_le (by simp [answers]), take_of_length_le (by simp [answers])] at heq
    obtain ⟨hfs, he⟩ := append_inj' heq rfl
    exact ⟨((map_injective_iff.mpr fun _ _ => Except.ok.inj) hfs).symm, by simpa using he.symm⟩
  · rintro ⟨rfl, rfl⟩
    exact h

end

/-! ### The reader -/

namespace Reader

variable {r : Reader}

def data (r : Reader) : Bytes := (r.buf.take r.stop).drop r.start

/-- The indices are in the buffer, which is as large as it was made. -/
structure Sound (r : Reader) : Prop where
  start : r.start ≤ r.stop
  stop : r.stop ≤ r.buf.length
  capacity : r.buf.length = capacityFor r.maxBulk
  limit : r.maxBulk ≤ usizeMax

theorem Sound.length_data (h : r.Sound) : r.data.length = r.stop - r.start := by
  have := h.stop
  simp only [data, length_drop, length_take]
  omega

theorem Sound.slice_all (h : r.Sound) : slice r.buf r.start r.stop = .ok r.data := by
  rw [slice, if_pos ⟨h.start, h.stop⟩, data]

theorem Sound.slice_data (h : r.Sound) {a b : ℕ} (hab : a ≤ b) (hb : r.start + b ≤ r.stop) :
    slice r.buf (r.start + a) (r.start + b) = .ok ((r.data.take b).drop a) := by
  have := h.stop
  rw [slice, if_pos (by omega), data, take_drop, take_take, drop_drop, min_eq_left hb]

/-- What `parse` answers, next to what the grammar says. -/
inductive Parsed (r : Reader) : Except ReadError (Option (Frame (ℕ × ℕ)) × Reader) →
    Except ReadError (Option (Frame Bytes × Bytes)) → Prop
  | refused (e : ReadError) : Parsed r (.error e) (.error e)
  | more : Parsed r (.ok (none, r)) (.ok none)
  | frame {g : Frame (ℕ × ℕ)} {f : Frame Bytes} {k : ℕ} (hshown : g.shown r.buf = .ok f) (hk : r.start + k ≤ r.stop) :
      Parsed r (.ok (some g, { r with start := r.start + k })) (.ok (some (f, r.data.drop k)))

theorem Sound.parseLine_refines (h : r.Sound) {kind : UInt8} {s : Bytes} (hd : r.data = kind :: s) {eol : ℕ}
    (hle : eol + 2 ≤ s.length) : r.Parsed (r.parseLine kind eol)
      (payload r.maxBulk r.maxArray kind (s.take eol) (s.drop (eol + 2))) := by
  have hlen := h.length_data
  rw [hd, length_cons] at hlen
  have hl : slice r.buf (r.start + 1) (r.start + 1 + eol) = .ok (s.take eol) := by
    have := h.slice_data (a := 1) (b := 1 + eol) (by omega) (by omega)
    rwa [← Nat.add_assoc, hd, Nat.add_comm 1 eol, take_succ_cons, drop_one, tail_cons] at this
  have hr : s.drop (eol + 2) = r.data.drop (eol + 3) := by rw [hd, drop_succ_cons]
  have ha : r.start + 1 + eol + 2 = r.start + (eol + 3) := by omega
  have hin : r.start + (eol + 3) ≤ r.stop := by omega
  simp only [parseLine, payload, hl, hr, ha, bind, Except.bind, pure, Except.pure]
  split_ifs
  · have hbo : ∀ {a b : ℕ}, a ≤ b → b ≤ (r.data.drop (eol + 3)).length →
        slice r.buf (r.start + (eol + 3) + a) (r.start + (eol + 3) + b) =
          .ok (((r.data.drop (eol + 3)).take b).drop a) := by
      intro a b hab hb
      rw [length_drop, hd, length_cons] at hb
      rw [Nat.add_assoc r.start _ a, Nat.add_assoc r.start _ b, h.slice_data (by omega) (by omega), take_drop,
        drop_drop]
    have hsu : sub r.stop (r.start + (eol + 3)) = .ok (r.data.drop (eol + 3)).length := by
      rw [sub, if_pos hin, length_drop, hd, length_cons]
      congr 1
      omega
    cases bulkLength r.maxBulk (s.take eol) with
    | error e => exact .refused e
    | ok o =>
      cases o with
      | none => exact .frame rfl hin
      | some n =>
        simp only [hsu]
        by_cases hs : (r.data.drop (eol + 3)).length < n + 2
        · simp only [if_pos hs]
          exact .more
        have he : slice r.buf (r.start + (eol + 3) + n) (r.start + (eol + 3) + n + 2) =
            .ok (((r.data.drop (eol + 3)).drop n).take 2) := by
          rw [Nat.add_assoc _ n 2, hbo (by omega) (by omega), drop_take, Nat.add_sub_cancel_left]
        simp only [if_neg hs, he]
        split_ifs with hc
        · exact .refused _
        · have hsh := hbo (Nat.zero_le n) (by omega)
          rw [Nat.add_zero, drop_zero] at hsh
          rw [Nat.add_assoc _ n 2, Nat.add_assoc r.start _ (n + 2), drop_drop]
          refine .frame ?_ ?_
          · simp only [Frame.shown, hsh, bind, Except.bind, pure, Except.pure]
          · rw [length_drop, hd, length_cons] at hs
            omega
  · cases hn : parseI64 (s.take eol) <;> simp only [lineFrame, hn, bind, Except.bind, pure,
      Except.pure] <;> split_ifs <;>
      first
      | exact .refused _
      | exact .frame rfl hin
      | exact .frame (by simp [Frame.shown, hl, bind, Except.bind, pure, Except.pure]) hin

/-- **`parse` is the grammar on what is buffered.** -/
theorem Sound.parse_refines (h : r.Sound) : r.Parsed r.parse (element r.maxBulk r.maxArray r.data) := by
  simp only [parse, h.slice_all, bind, Except.bind]
  cases hd : r.data with
  | nil => exact .more
  | cons kind s =>
    have hw : slice (kind :: s) 1 (min (kind :: s).length (maxLine + 3)) = .ok (s.take (maxLine + 2)) := by
      have hm : min (kind :: s).length (maxLine + 3) = min (maxLine + 2) s.length + 1 := by
        rw [length_cons]
        omega
      rw [slice, if_pos (by simp), hm, take_succ_cons, drop_one, tail_cons, ← take_eq_take_min]
    simp only [head?_cons, hw, crlfAt_take, element]
    cases hs : crlfAt s with
    | none =>
      by_cases hsh : s.length < maxLine + 2
      · simp only [Option.filter_none, if_pos hsh]
        rw [if_neg (by simp; omega)]
        exact .more
      · simp only [Option.filter_none, if_neg hsh]
        rw [if_pos (by simp; omega)]
        exact .refused _
    | some eol =>
      have hle := crlfAt_le hs
      by_cases hl : maxLine < eol
      · have hn : (some eol).filter (fun i => decide (i + 2 ≤ maxLine + 2)) = none := by
          simpa [Option.filter] using hl
        simp only [hn, if_pos hl]
        rw [if_pos (by simp; omega)]
        exact .refused _
      · have hso : (some eol).filter (fun i => decide (i + 2 ≤ maxLine + 2)) = some eol := by
          simpa [Option.filter] using hl
        simp only [hso, if_neg hl]
        exact h.parseLine_refines hd hle

theorem Sound.compact (h : r.Sound) : ∃ r', r.compact = .ok r' ∧ r'.Sound ∧ r'.start = 0 ∧ r'.data = r.data ∧
    r'.maxBulk = r.maxBulk ∧ r'.maxArray = r.maxArray := by
  have hl := h.length_data
  have hst := h.stop
  unfold Reader.compact
  split_ifs with hs
  · rw [h.slice_all, sub, if_pos h.start]
    refine ⟨_, rfl, ⟨Nat.zero_le _, ?_, ?_, h.limit⟩, rfl, ?_, rfl, rfl⟩
    · simp only [length_append, length_drop]
      omega
    · rw [← h.capacity]
      simp only [length_append, length_drop]
      omega
    · rw [data, ← hl, take_left, drop_zero]
  · exact ⟨r, rfl, h, by omega, rfl, rfl, rfl⟩

theorem Sound.fill (h : r.Sound) (hro : r.data.length < capacityFor r.maxBulk) (io : List Chunk) :
    (io = [] ∧ r.fill io = .error .closed) ∨
      ∃ r' io', r.fill io = .ok (r', io') ∧ r'.Sound ∧ r'.data ++ stream io' = r.data ++ stream io ∧
        r'.maxBulk = r.maxBulk ∧ r'.maxArray = r.maxArray := by
  obtain ⟨r₁, hr₁, h₁, hst, hd, hb, ha⟩ := h.compact
  have hl := h₁.length_data
  have hs := h₁.stop
  have hc := h₁.capacity
  rw [← hd, ← hb] at hro
  have hfr : slice r₁.buf r₁.stop r₁.buf.length = .ok (r₁.buf.drop r₁.stop) := by
    rw [slice, if_pos ⟨hs, le_rfl⟩, take_length]
  have hf := length_read (r₁.buf.drop r₁.stop).length io
  have hstr := read_stream (r₁.buf.drop r₁.stop).length io
  unfold Reader.fill
  simp only [hr₁, hfr, bind, Except.bind, pure, Except.pure]
  rw [if_neg (by omega)]
  split_ifs with hr
  · exact .inl ⟨eq_nil_of_read (by rw [length_drop]; omega) (List.length_eq_zero_iff.mp hr), rfl⟩
  rw [length_drop] at hf
  refine .inr ⟨_, _, rfl, ⟨by simp only; omega, ?_, ?_, h₁.limit⟩, ?_, hb, ha⟩
  · simp only [length_append, length_take, length_drop]
    omega
  · rw [← hc]
    simp only [length_append, length_take, length_drop]
    omega
  · have ht : (r₁.buf.take r₁.stop).length = r₁.stop := by simp [hs]
    rw [← hd, ← hstr, ← append_assoc, data, data, hst, drop_zero, drop_zero, ← append_assoc,
      take_left' (by rw [length_append, ht])]

/-- What `next` answers, next to what the grammar says of the whole stream. -/
inductive Answered (maxBulk maxArray : ℕ) : Except ReadError (Frame (ℕ × ℕ) × Reader × List Chunk) →
    Except ReadError (Option (Frame Bytes × Bytes)) → Prop
  | refused (e : ReadError) : Answered maxBulk maxArray (.error e) (.error e)
  | closed : Answered maxBulk maxArray (.error .closed) (.ok none)
  | frame {g : Frame (ℕ × ℕ)} {f : Frame Bytes} {r : Reader} {io : List Chunk} (hshown : g.shown r.buf = .ok f)
      (hr : r.Sound) (hbulk : r.maxBulk = maxBulk) (harray : r.maxArray = maxArray) :
      Answered maxBulk maxArray (.ok (g, r, io)) (.ok (some (f, r.data ++ stream io)))

/-- **`next` is the grammar on the stream**, however it arrives. -/
theorem Sound.next_refines (h : r.Sound) (io : List Chunk) :
    Answered r.maxBulk r.maxArray (r.next io) (element r.maxBulk r.maxArray (r.data ++ stream io)) := by
  induction hn : (stream io).length using Nat.strong_induction_on generalizing r io with
  | _ n ih =>
    have hp := h.parse_refines
    rw [next]
    generalize hx : r.parse = x at hp
    generalize ho : element r.maxBulk r.maxArray r.data = o at hp
    cases hp with
    | refused e =>
      rw [element_append (by simp [ho]), ho]
      exact .refused e
    | @frame g f k hs hk =>
      rw [element_append (by simp [ho]), ho]
      have hd : ({ r with start := r.start + k } : Reader).data = r.data.drop k := by
        rw [data, data, drop_drop]
      simp only [Except.map, Option.map_some, ← hd]
      exact .frame hs ⟨hk, h.stop, h.capacity, h.limit⟩ rfl rfl
    | more =>
      have hr := length_lt_capacity h.limit ho
      dsimp only
      obtain ⟨rfl, hfi⟩ | ⟨r', io', hfi, h', hd, hb, ha⟩ := h.fill hr io
      · split <;> rename_i hf' <;> cases hfi.symm.trans hf'
        simp only [stream, flatMap_nil, append_nil, ho]
        exact .closed
      · have hne := ih _ (hn ▸ fill_shrinks hfi) h' io' rfl
        rw [hb, ha, hd] at hne
        split <;> rename_i hf' <;> cases hfi.symm.trans hf'
        exact hne

theorem Sound.results_eq (h : r.Sound) (io : List Chunk) (n : ℕ) :
    r.results io n = replies r.maxBulk r.maxArray n (r.data ++ stream io) := by
  induction n generalizing r io with
  | zero => rfl
  | succ n ih =>
    have hn := h.next_refines io
    rw [results, replies]
    generalize r.next io = x at hn
    generalize element r.maxBulk r.maxArray (r.data ++ stream io) = o at hn
    cases hn with
    | refused e => rfl
    | closed => rfl
    | frame hs hr hb ha => simp only [hs, ih hr, hb, ha]

end Reader

/-! ### Commands -/

theorem decimal_digits (n : ℕ) : decimal n ≠ [] ∧ ∀ d ∈ decimal n, 48 ≤ d ∧ d ≤ 57 := by
  induction n using Nat.strong_induction_on with
  | _ n ih =>
    have hl : ∀ m < 10, 48 ≤ UInt8.ofNat (48 + m) ∧ UInt8.ofNat (48 + m) ≤ 57 := by decide
    rw [decimal]
    refine ⟨by simp, fun d hd => ?_⟩
    rw [mem_append, mem_singleton] at hd
    rcases hd with hd | rfl
    · split_ifs at hd with hn
      · cases hd
      · exact (ih (n / 10) (by omega)).2 d hd
    · exact hl _ (Nat.mod_lt n (by decide))

theorem value_decimal (n : ℕ) : value 0 (decimal n) = n := by
  induction n using Nat.strong_induction_on with
  | _ n ih =>
    have hl : ∀ m < 10, (UInt8.ofNat (48 + m)).toNat - 48 = m := by decide
    have hf : value 0 (if n < 10 then [] else decimal (n / 10)) = n / 10 := by
      split_ifs with hn
      · exact (Nat.div_eq_of_lt hn).symm
      · exact ih (n / 10) (by omega)
    have hb : value (n / 10) [UInt8.ofNat (48 + n % 10)] = n := by
      rw [value, foldl_cons, foldl_nil, hl _ (Nat.mod_lt n (by decide))]
      omega
    rw [value] at hf hb ⊢
    rw [decimal, foldl_append, hf, hb]

theorem digits_le {n k : ℕ} (hn : n < 10 ^ (k + 1)) : digits n ≤ k + 1 := by
  induction k generalizing n with
  | zero => rw [digits, if_pos (by omega)]
  | succ k ih =>
    rw [digits]
    split_ifs
    · omega
    · have := ih (n := n / 10) (by rw [pow_succ] at hn; omega)
      omega

theorem number_decimal {n : ℕ} (hn : n < 2 ^ 63) : Number (decimal n) n := by
  have hlen := digits_le (n := n) (k := 18) (by omega)
  rw [← length_decimal] at hlen
  have h := Number.plain ⟨(decimal_digits n).1, (decimal_digits n).2, hlen, by rwa [value_decimal]⟩
  rwa [value_decimal] at h

theorem commandLen_of_lt {args : List Bytes} (hlen : (pushCommand args).length < 2 ^ 63) :
    commandLen args = (pushCommand args).length := by
  have := commandLen_eq args
  unfold usizeMax at this
  omega

section

variable {maxBulk maxArray : ℕ} {args : List Bytes} (hlen : (pushCommand args).length < 2 ^ 63)
  (harray : args.length ≤ maxArray) (hbulk : ∀ a ∈ args, a.length ≤ maxBulk)

include hlen harray hbulk

/-- A command is read back as it was written. -/
theorem Replies.pushCommand {rest : Bytes} {fs : List (Frame Bytes)} {e : ReadError}
    (h : Replies maxBulk maxArray rest fs e) : Replies maxBulk maxArray (pushCommand args ++ rest)
      (.array (some args.length) :: args.map (fun a => .bulk (some a)) ++ fs) e := by
  have hc : args.length * 1 ≤ (args.flatMap bulk).length :=
    mul_length_le_flatMap fun a _ => by simp [bulk, bulkHeader]
  have hs : (args.flatMap bulk).length < 2 ^ 63 := by
    rw [Resp.pushCommand, length_append] at hlen
    omega
  have har : ∀ a ∈ args, Encodes maxBulk maxArray (.bulk (some a)) (bulk a) := by
    intro a ha
    have hle : (bulk a).length ≤ (args.flatMap bulk).length :=
      (sublist_flatten_of_mem (mem_map_of_mem (f := bulk) ha)).length_le
    simp only [bulk, length_append] at hle
    exact .bulk (number_decimal (by omega)) (hbulk a ha)
  rw [Resp.pushCommand, append_assoc, cons_append]
  refine .frame (.array (number_decimal (by omega)) harray) ?_
  clear hlen harray hbulk hc hs
  induction args with
  | nil => exact h
  | cons a args ih =>
    rw [flatMap_cons, append_assoc, map_cons, cons_append]
    exact .frame (har a (by simp)) (ih fun a ha => har a (by simp [ha]))

theorem replies_pushCommand (n : ℕ) (rest : Bytes) :
    replies maxBulk maxArray (args.length + n + 1) (pushCommand args ++ rest) =
      .ok (.array (some args.length)) :: args.map (fun a => .ok (.bulk (some a))) ++
        replies maxBulk maxArray n rest := by
  obtain ⟨fs, e, h⟩ := exists_unique_replies maxBulk maxArray rest
  replace h := (h fs e).mpr ⟨rfl, rfl⟩
  rw [(h.pushCommand hlen harray hbulk).replies, h.replies]
  have ht : (args.map fun a => (.ok (.bulk (some a)) : Except ReadError (Frame Bytes))).take (args.length + n) =
      args.map fun a => .ok (.bulk (some a)) := take_of_length_le (by simp)
  simp [answers, take_append, Function.comp_def, ht]

end

/-- **Fragmentation.** However a stream is cut into reads, the calls of `next` return the elements of the only way to
read it, up to the error it ends with, which is never that of a full buffer or of an index out of range; and a command
is as long as it was computed, and read back as it was written. -/
theorem fragmentation_independent (maxBulk maxArray : UInt64) : (∀ io : List Chunk, ∃ fs e,
      (∀ fs' e', Replies maxBulk.toNat maxArray.toNat (stream io) fs' e' ↔ fs' = fs ∧ e' = e) ∧ e.Expected ∧
      ∀ n, (Reader.new maxBulk maxArray).results io n = (answers fs e).take n) ∧
    ∀ args : List Bytes, (pushCommand args).length < 2 ^ 63 → commandLen args = (pushCommand args).length ∧
      (args.length ≤ maxArray.toNat → (∀ a ∈ args, a.length ≤ maxBulk.toNat) → ∀ rest fs e,
        Replies maxBulk.toNat maxArray.toNat rest fs e → Replies maxBulk.toNat maxArray.toNat (pushCommand args ++ rest)
          (.array (some args.length) :: args.map (fun a => .bulk (some a)) ++ fs) e) := by
  have hm : maxBulk.toNat ≤ usizeMax := by
    have := maxBulk.toNat_lt
    unfold usizeMax
    omega
  refine ⟨fun io => ?_, fun args hlen => ⟨commandLen_of_lt hlen, fun harray hbulk rest fs e h => ?_⟩⟩
  · obtain ⟨fs, e, hu⟩ := exists_unique_replies maxBulk.toNat maxArray.toNat (stream io)
    have h := (hu fs e).mpr ⟨rfl, rfl⟩
    have hs : (Reader.new maxBulk maxArray).Sound := ⟨le_rfl, Nat.zero_le _, by simp [Reader.new], hm⟩
    exact ⟨fs, e, hu, h.expected, fun n => (hs.results_eq io n).trans (h.replies n)⟩
  · exact h.pushCommand hlen harray hbulk

/-- `+OK`, `:-12`, an empty bulk string, and `:+1`, which is not a number of this reader. -/
def sampleStream : Bytes :=
  [43, 79, 75, 13, 10] ++ ([58, 45, 49, 50, 13, 10] ++ ([36, 48, 13, 10, 13, 10] ++ [58, 43, 49, 13, 10]))

/-- It arrives byte by byte. -/
def sampleChunks : List Chunk := sampleStream.map fun b => ⟨[b], by simp⟩

theorem fragmentation_independent_sample :
    (∀ n, (Reader.new 64 4).results sampleChunks n = (answers [.simple [79, 75], .integer (-12), .bulk (some [])]
      (.protocol "invalid Redis integer")).take n) ∧
    Replies 64 4 (pushCommand [[80, 73, 78, 71]]) [.array (some 1), .bulk (some [80, 73, 78, 71])] .closed := by
  have hpl : ∀ n, ¬ Number [43, 49] n := by
    intro n hn
    cases hn with
    | plain h => exact absurd (h.decimal 43 (by simp)) (by decide)
  have hok : Encodes 64 4 (.simple [79, 75]) [43, 79, 75, 13, 10] :=
    .simple (⟨by decide, by decide⟩ : Line [79, 75])
  have ht : Encodes 64 4 (.integer (-12)) [58, 45, 49, 50, 13, 10] :=
    .integer (.minus (⟨by simp, by simp, by simp, by decide⟩ : Digits [49, 50]))
  have hz : Number [48] (([] : Bytes).length) := .plain ⟨by simp, by simp, by simp, by decide⟩
  have he : Encodes 64 4 (.bulk (some [])) (36 :: ([48] ++ crlf) ++ ([] ++ crlf)) := .bulk hz (Nat.zero_le _)
  have hen : Fails 64 4 [58, 43, 49, 13, 10] (.protocol "invalid Redis integer") :=
    .number (by simp) (⟨by decide, by decide⟩ : Line [43, 49]) hpl
  have hp : Replies 64 4 sampleStream [.simple [79, 75], .integer (-12), .bulk (some [])]
      (.protocol "invalid Redis integer") := .frame hok (.frame ht (.frame he (.ends hen)))
  have hs : stream sampleChunks = sampleStream := by decide
  obtain ⟨hr, hc⟩ := fragmentation_independent 64 4
  obtain ⟨fs, e, hu, -, hre⟩ := hr sampleChunks
  rw [hs] at hu
  obtain ⟨rfl, rfl⟩ := (hu _ _).mp hp
  have hlen : (pushCommand [[80, 73, 78, 71]]).length < 2 ^ 63 := by
    simp [pushCommand, arrayHeader, bulk, bulkHeader, decimal, crlf]
  have h := (hc _ hlen).2 (by decide) (by decide) [] [] .closed (.ends (.cutLine (by decide) (by decide)))
  rw [append_nil] at h
  exact ⟨hre, h⟩

end Sparrow.Connectors.Resp
