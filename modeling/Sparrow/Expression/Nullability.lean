import Sparrow.Expression.Project

/-!
# Inferred nullability

`infer_nullable` (`sparrow-expr/src/infer.rs`) answers whether an expression can evaluate to
NULL on a valid row. Its answer `false` is wrong for two operations that give NULL for
values that are not NULL: a division by zero, and `greatest` or `least` of NaN alone.
-/

namespace Sparrow.Expression

open Library Model

/-! ### How functions treat NULL -/

/-- What of its arguments makes a call NULL. -/
inductive NullRule where
  | strict
  | keys
  | first
  | extreme
  | exempt
  deriving DecidableEq

def Function.nullRule (f : Function) : NullRule :=
  if f.isCollection then .exempt
  else match f with
    | .jsonGet | .jsonStringify | .nullif => .exempt
    | .jsonObject => .keys
    | .coalesce => .first
    | .greatest | .least => .extreme
    | _ => .strict

/-- The functions of one argument that are not builtins. -/
def Function.isUnary : Function → Bool
  | .abs | .lower | .upper | .length | .charLength => true
  | _ => false

variable {texts : Texts} {schema : Schema} {row : List Scalar} {f : Function} {name : String} {args : List Expr}
  {vals : List Scalar} {v : Scalar} {u : Unit} {α : Type}

theorem eq_singleton_of_isUnary {l : List α} (hf : f.isUnary = true)
    (ha : f.checkCallArity l.length = .ok u) : ∃ a, l = [a] := by
  obtain ⟨hl, hm⟩ := checkCallArity_ok ha
  refine List.length_eq_one_iff.mp ?_
  have ho : f.semantics.minArgs = 1 ∧ f.semantics.maxArgs = some 1 := by
    cases f <;> first | exact ⟨rfl, rfl⟩ | cases hf
  have := hm 1 ho.2
  omega

theorem propagates_of_strict (hr : f.nullRule = .strict) (hu : f.isUnary = false) : f.Propagates := by
  cases f <;> first
    | exact ⟨rfl, rfl, by decide, by decide, by decide⟩
    | exact absurd hr (by decide)
    | exact absurd hu (by decide)

theorem evalUnary_isNull (hf : f.isUnary = true) {a : Scalar} (h : evalCallValues texts f [a] = .ok v) :
    v.isNull = a.isNull := by
  have ht : ∀ {name : String} {op : String → Scalar} {T : DataType}, evalText name op (some a) = .ok v →
      (∀ s, (op s).dataType = T) → Plain T = true → v.isNull = a.isNull := by
    intro name op T h hop hT
    obtain ⟨ha, rfl⟩ | ⟨⟨s, ha⟩, hv⟩ := evalText_ok hop h
    · rw [Option.some.inj ha]
    · rw [Option.some.inj ha, isNull_of_plain hv hT]
      rfl
  cases f with
  | abs =>
    obtain ⟨b, hb, -, hn, -⟩ := evalAbs_ok h
    rw [hn, Option.some.inj hb]
  | lower | upper | length | charLength => exact ht h (fun _ => rfl) rfl
  | _ => cases hf

theorem evalStrict_isNull (hr : f.nullRule = .strict) (ha : f.checkCallArity vals.length = .ok u)
    (h : evalCallValues texts f vals = .ok v) : v.isNull = true ↔ ∃ w ∈ vals, w.isNull = true := by
  cases hu : f.isUnary with
  | true =>
    obtain ⟨a, rfl⟩ := eq_singleton_of_isUnary hu ha
    simp [evalUnary_isNull hu h]
  | false =>
    have hf := propagates_of_strict hr hu
    refine evalBuiltin_isNull hf (?_ : evalBuiltin texts f vals = .ok v)
    simpa [evalCallValues, hf.1, hf.2.1] using h

/-! ### What is inferred not to be NULL -/

theorem anyNullable_eq_false : ∀ {args : List Expr}, anyNullable schema args = .ok false →
    ∀ a ∈ args, inferNullable schema a = .ok false
  | [], _ => fun _ ha => absurd ha List.not_mem_nil
  | e :: rest, h => by
    obtain ⟨n, hn, h⟩ := bind_eq_ok.mp h
    obtain ⟨ns, hns, h⟩ := bind_eq_ok.mp h
    obtain ⟨rfl, rfl⟩ := Bool.or_eq_false_iff.mp (Except.ok.inj h)
    exact List.forall_mem_cons.mpr ⟨hn, anyNullable_eq_false hns⟩

/-- The arguments of a strict call, of a `json_object` and of a `greatest` or `least` that is inferred not to be NULL. -/
theorem inferNullable_args (hf : Function.ofName name = some f) (har : f.checkCallArity args.length = .ok u)
    (hr : f.nullRule ≠ .first ∧ f.nullRule ≠ .exempt) (h : inferNullable schema (.call name args) = .ok false) :
    ∀ a ∈ args, inferNullable schema a = .ok false := by
  have hc : anyNullable schema args = .ok false ∨ (f.isUnary = true ∧ firstNullable schema args = .ok false) := by
    have hco : (if anyDynamic schema args = true then Except.ok true else anyNullable schema args) = .ok false →
        anyNullable schema args = .ok false := by
      intro h
      split_ifs at h
      · cases h
      · exact h
    unfold inferNullable at h
    simp only [hf] at h
    cases f <;> first
      | exact .inl h
      | exact .inr ⟨rfl, h⟩
      | exact .inl (hco h)
      | exact absurd rfl hr.1
      | exact absurd rfl hr.2
  obtain ha | ⟨hu, hfi⟩ := hc
  · exact anyNullable_eq_false ha
  · obtain ⟨a, rfl⟩ := eq_singleton_of_isUnary hu har
    exact List.forall_mem_singleton.mpr hfi

theorem eq_jsonStringify (hf : Function.ofName name = some f) (hr : f.nullRule = .exempt)
    (h : inferNullable schema (.call name args) = .ok false) : f = .jsonStringify := by
  unfold inferNullable at h
  simp only [hf] at h
  cases f <;> first
    | rfl
    | exact absurd hr (by decide)
    | cases h

/-! ### Where NULL escapes -/

variable (texts schema row)

/-- An expression that is NULL though its columns are not: a division by zero, or a `greatest` or `least` of NaN, is where it
decides the result. -/
inductive Escapes : Expr → Prop
  | cast {e : Expr} {T : DataType} : Escapes e → Escapes (.cast e T)
  | not {e : Expr} : Escapes e → Escapes (.not e)
  | zero {l r : Expr} {lv rv : Scalar} : eval texts l schema row = .ok lv → eval texts r schema row = .ok rv →
      zeroDivisor lv rv = true → Escapes (.binary .div l r)
  | operand {op : BinaryOp} {l r e : Expr} : op.IsStrict → e = l ∨ e = r → Escapes e → Escapes (.binary op l r)
  /-- `AND` and `OR`, if the other operand does not decide. -/
  | undecided {op : BinaryOp} {l r e : Expr} : op = .and ∨ op = .or → e = l ∨ e = r → Escapes e →
      eval texts l schema row ≠ .ok (.bool (op = .or)) → eval texts r schema row ≠ .ok (.bool (op = .or)) →
      Escapes (.binary op l r)
  | argument {name : String} {f : Function} {args : List Expr} {a : Expr} : Function.ofName name = some f →
      f.nullRule = .strict → a ∈ args → Escapes a → Escapes (.call name args)
  | key {name : String} {f : Function} {args : List Expr} {a : Expr} : Function.ofName name = some f →
      f.nullRule = .keys → a ∈ stepByTwo args → Escapes a → Escapes (.call name args)
  /-- `coalesce` of what escapes and of what may be NULL and is. -/
  | first {name : String} {f : Function} {args : List Expr} : Function.ofName name = some f → f.nullRule = .first →
      (∀ a ∈ args, inferNullable schema a = .ok false → Escapes a) →
      (∀ a ∈ args, inferNullable schema a ≠ .ok false → ∃ w, eval texts a schema row = .ok w ∧ w.isNull = true) →
      Escapes (.call name args)
  /-- `greatest` or `least` of what escapes and of NaN alone. -/
  | extreme {name : String} {f : Function} {args : List Expr} : Function.ofName name = some f → f.nullRule = .extreme →
      (∀ a ∈ args, (¬ ∃ w, eval texts a schema row = .ok w ∧ w.isNaN = true) → Escapes a) → Escapes (.call name args)

variable {texts schema row}

theorem forall₂_stepByTwo {β : Type} {R : α → β → Prop} :
    ∀ {l : List α} {m : List β}, List.Forall₂ R l m → List.Forall₂ R (stepByTwo l) (stepByTwo m)
  | _, _, .nil => .nil
  | _, _, .cons h .nil => .cons h .nil
  | _, _, .cons h (.cons _ hr) => .cons h (forall₂_stepByTwo hr)

section

variable {α β : Type} {P : α → Prop} {Q : β → Prop} {l : List α} {m : List β}
  (h : List.Forall₂ (fun a b => Q b ↔ P a) l m)

include h

/-- A relation along two lists that decides a property of the second decides whether one of them has it. -/
theorem exists_mem_iff_of_forall₂ : (∃ b ∈ m, Q b) ↔ ∃ a ∈ l, P a := by
  induction h with
  | nil => simp
  | cons hh _ ih => simp [hh, ih]

theorem forall_mem_iff_of_forall₂ : (∀ b ∈ m, Q b) ↔ ∀ a ∈ l, P a := by
  induction h with
  | nil => simp
  | cons hh _ ih => simp [hh, ih]

end

theorem Escapes.of_call (hf : Function.ofName name = some f) (h : Escapes texts schema row (.call name args)) :
    match f.nullRule with
    | .strict => ∃ a ∈ args, Escapes texts schema row a
    | .keys => ∃ a ∈ stepByTwo args, Escapes texts schema row a
    | .first => ∀ a ∈ args, (inferNullable schema a = .ok false → Escapes texts schema row a) ∧
        (inferNullable schema a ≠ .ok false → ∃ w, eval texts a schema row = .ok w ∧ w.isNull = true)
    | .extreme => ∀ a ∈ args, (¬ ∃ w, eval texts a schema row = .ok w ∧ w.isNaN = true) → Escapes texts schema row a
    | .exempt => False := by
  cases h with
  | argument hf' hr ha he =>
    cases hf.symm.trans hf'
    rw [hr]
    exact ⟨_, ha, he⟩
  | key hf' hr ha he =>
    cases hf.symm.trans hf'
    rw [hr]
    exact ⟨_, ha, he⟩
  | first hf' hr hes hal =>
    cases hf.symm.trans hf'
    rw [hr]
    exact fun a ha => ⟨hes a ha, hal a ha⟩
  | extreme hf' hr hal =>
    cases hf.symm.trans hf'
    rw [hr]
    exact hal

variable (texts schema row) in
/-- What is to be proved of an expression: where it is inferred not to be NULL, it is NULL exactly if it escapes. -/
def Settled (e : Expr) : Prop :=
  ∀ {v : Scalar}, inferNullable schema e = .ok false → eval texts e schema row = .ok v →
    (v.isNull = true ↔ Escapes texts schema row e)

theorem forall₂_escapes (har : List.Forall₂ (fun a w => eval texts a schema row = .ok w) args vals)
    (hnu : ∀ a ∈ args, inferNullable schema a = .ok false) (ih : ∀ a ∈ args, Settled texts schema row a) :
    List.Forall₂ (fun a w => eval texts a schema row = .ok w ∧ (w.isNull = true ↔ Escapes texts schema row a))
      args vals := by
  refine ((List.forall₂_and_left _ _).mpr ⟨fun a ha => And.intro (hnu a ha) (@ih a ha), har⟩).imp ?_
  rintro a w ⟨⟨hn, hs⟩, hw⟩
  exact ⟨hw, hs hn hw⟩

theorem settled_call (ih : ∀ a ∈ args, Settled texts schema row a) : Settled texts schema row (.call name args) := by
  intro v hnu h
  obtain ⟨f, vals, hf, hari, har, h⟩ := eval_call_ok h
  have hes : Escapes texts schema row (.call name args) → _ := Escapes.of_call hf
  cases hr : f.nullRule with
  | strict =>
    have hi := inferNullable_args hf hari (by simp [hr]) hnu
    rw [evalStrict_isNull hr (har.length_eq ▸ hari) h,
      exists_mem_iff_of_forall₂ ((forall₂_escapes har hi ih).imp fun _ _ => And.right)]
    refine ⟨?_, fun he => by simpa only [hr] using hes he⟩
    rintro ⟨a, ha, he⟩
    exact .argument hf hr ha he
  | keys =>
    have hi := inferNullable_args hf hari (by simp [hr]) hnu
    have ho : f = .jsonObject := by
      cases f <;> first | rfl | exact absurd hr (by decide)
    subst ho
    have h : evalBuiltin texts .jsonObject vals = .ok v := h
    have hk : v.isNull = true ↔ _ := jsonObject_isNull h
    rw [hk, exists_mem_iff_of_forall₂
      (forall₂_stepByTwo ((forall₂_escapes har hi ih).imp fun _ _ => And.right))]
    refine ⟨?_, fun he => by simpa only [hr] using hes he⟩
    rintro ⟨a, ha, he⟩
    exact .key hf hr ha he
  | first =>
    have hc : f = .coalesce := by
      cases f <;> first | rfl | exact absurd hr (by decide)
    subst hc
    have hv : List.Forall₂ (fun a w => w.isNull = true ↔
        (inferNullable schema a = .ok false → Escapes texts schema row a) ∧
        (inferNullable schema a ≠ .ok false → ∃ w, eval texts a schema row = .ok w ∧ w.isNull = true)) args vals := by
      refine ((List.forall₂_and_left _ _).mpr ⟨fun a ha => @ih a ha, har⟩).imp fun a w hw => ?_
      by_cases hn : inferNullable schema a = .ok false
      · simp [hn, hw.1 hn hw.2]
      · simp [hn, hw.2]
    rw [evalCoalesce_isNull h, forall_mem_iff_of_forall₂ hv]
    refine ⟨fun hal => .first hf hr (fun a ha => (hal a ha).1) fun a ha => (hal a ha).2, fun he => ?_⟩
    simpa only [hr] using hes he
  | extreme =>
    have hi := inferNullable_args hf hari (by simp [hr]) hnu
    have hs : v.isNull = true ↔ ∀ w ∈ vals, Skipped w := by
      cases f <;> first
        | exact evalExtreme_isNull h
        | exact absurd hr (by decide)
    have hv : List.Forall₂ (fun a w => Skipped w ↔
        ((¬ ∃ w, eval texts a schema row = .ok w ∧ w.isNaN = true) → Escapes texts schema row a)) args vals := by
      refine (forall₂_escapes har hi ih).imp ?_
      rintro a w ⟨hev, hw⟩
      rw [Skipped, hw, ← or_iff_not_imp_left, or_comm]
      refine or_congr_left ⟨fun hn => ⟨w, hev, hn⟩, ?_⟩
      rintro ⟨w', hw', hn⟩
      exact Except.ok.inj (hev.symm.trans hw') ▸ hn
    rw [hs, forall_mem_iff_of_forall₂ hv]
    refine ⟨fun hal => .extreme hf hr hal, fun he => ?_⟩
    simpa only [hr] using hes he
  | exempt =>
    obtain rfl := eq_jsonStringify hf hr hnu
    refine iff_of_false ?_ fun he => by simpa only [hr] using hes he
    simp [isNull_of_plain (jsonStringify_ok h) rfl]

theorem settled_binary {op : BinaryOp} {l r : Expr} (ihl : Settled texts schema row l)
    (ihr : Settled texts schema row r) :
    Settled texts schema row (.binary op l r) := by
  intro v hnu h
  obtain ⟨hl, hr⟩ : inferNullable schema l = .ok false ∧ inferNullable schema r = .ok false := by
    obtain ⟨n, hn, hnu⟩ := bind_eq_ok.mp hnu
    cases n with
    | true => cases hnu
    | false => exact ⟨hn, hnu⟩
  obtain ⟨lv, rv, hlv, hrv, h⟩ := eval_binary_ok h
  have hp : lv.isNull = true ∨ rv.isNull = true ↔ ∃ e, (e = l ∨ e = r) ∧ Escapes texts schema row e := by
    rw [ihl hl hlv, ihr hr hrv]
    simp
  by_cases hop : op.IsStrict
  · rw [evalBinary_isNull hop h, ← or_assoc, hp]
    constructor
    · rintro (⟨e, he, hes⟩ | ⟨rfl, hz⟩)
      · exact .operand hop he hes
      · exact .zero hlv hrv hz
    · intro hes
      cases hes with
      | zero hl' hr' hz =>
        cases hlv.symm.trans hl'
        cases hrv.symm.trans hr'
        exact .inr ⟨rfl, hz⟩
      | operand _ he hes => exact .inl ⟨_, he, hes⟩
      | undecided ho' => exact absurd ho' (not_or.mpr hop)
  · have hop : op = .and ∨ op = .or := by
      by_contra hne
      exact hop (not_or.mp hne)
    have hlo : evalLogic op lv rv = .ok v := by
      obtain rfl | rfl := hop <;> exact h
    rw [(evalLogic_isNull hop hlo).2, hp]
    constructor
    · rintro ⟨⟨e, he, hes⟩, hl, hr⟩
      refine .undecided hop he hes ?_ ?_
      · exact fun hb => hl (Except.ok.inj (hlv.symm.trans hb))
      · exact fun hb => hr (Except.ok.inj (hrv.symm.trans hb))
    · intro hes
      cases hes with
      | zero => simp at hop
      | operand hs => exact absurd hop (not_or.mpr hs)
      | undecided _ he hes hl hr =>
        exact ⟨⟨_, he, hes⟩, fun hb => hl (hb ▸ hlv), fun hb => hr (hb ▸ hrv)⟩

/-- **On a row that fits, an expression that is inferred not to be NULL is NULL exactly if it escapes.** -/
theorem isNull_iff_escapes (hr : Row.Fits schema ⟨row⟩) (e : Expr) : Settled texts schema row e := by
  induction e using Expr.induction with
  | column name =>
    intro v hnu h
    obtain ⟨fld, hf, ht⟩ := eval_column_ok hr h
    unfold inferNullable at hnu
    simp only [hf, Except.ok.injEq] at hnu
    refine iff_of_false (fun hn => ?_) (by rintro ⟨⟩)
    exact absurd (ht.1 hn) (by simp [hnu])
  | literal value =>
    intro v hnu h
    cases h
    have hnu : value.isNull = false := Except.ok.inj hnu
    exact iff_of_false (by simp [hnu]) (by rintro ⟨⟩)
  | cast e T ih =>
    intro v hnu h
    obtain ⟨w, hw, h⟩ := eval_cast_ok h
    rw [(cast_ok h).2 rfl, ih hnu hw]
    exact ⟨.cast, fun he => by cases he; assumption⟩
  | tryCast e T => rintro v ⟨⟩
  | binary op l r ihl ihr => exact settled_binary ihl ihr
  | isNull e =>
    intro v _ h
    obtain ⟨b, rfl⟩ := eval_isNull_ok h
    exact iff_of_false (by simp [Scalar.isNull]) (by rintro ⟨⟩)
  | isNotNull e =>
    intro v _ h
    obtain ⟨b, rfl⟩ := eval_isNotNull_ok h
    exact iff_of_false (by simp [Scalar.isNull]) (by rintro ⟨⟩)
  | not e ih =>
    intro v hnu h
    obtain ⟨w, hw, hc⟩ := eval_not_ok h
    have hs : v.isNull = w.isNull := by
      obtain ⟨rfl, rfl⟩ | ⟨b, rfl, rfl⟩ := hc <;> rfl
    rw [hs, ih hnu hw]
    exact ⟨.not, fun he => by cases he; assumption⟩
  | call name args ih => exact settled_call ih
  | dynamicGet e key => rintro v ⟨⟩

/-! ### Projections -/

theorem refuses_iff {e : Expr} {fld : Field} (hr : Row.Fits schema ⟨row⟩)
    (hf : inferNullable schema e = .ok fld.nullable)
    (hv : eval texts e schema row = .ok v) : checkValue v fld ≠ .error (nonNullable fld) ↔
      (inferNullable schema e = .ok false → ¬ Escapes texts schema row e) := by
  rw [ne_eq, checkValue_eq_nonNullable, not_and', hf]
  cases hn : fld.nullable with
  | true => simp
  | false =>
    rw [isNull_iff_escapes hr e (hn ▸ hf) hv]
    simp

theorem refuses_none_iff (hr : Row.Fits schema ⟨row⟩) {specs : List NamedExpr} {fields : List Field}
    {values : List Scalar}
    (hf : List.Forall₂ (fun s f => inferNullable schema s.expr = .ok f.nullable) specs fields)
    (hva : List.Forall₂ (fun s w => eval texts s.expr schema row = .ok w) specs values) :
    (∀ p ∈ values.zip fields, checkValue p.1 p.2 ≠ .error (nonNullable p.2)) ↔
      ∀ s ∈ specs, inferNullable schema s.expr = .ok false → ¬ Escapes texts schema row s.expr := by
  induction hf generalizing values with
  | nil => simp
  | cons hfl _ ih =>
    cases hva with
    | cons hv hva => rw [List.zip_cons_cons, List.forall_mem_cons, List.forall_mem_cons, ih hva, refuses_iff hr hfl hv]

/-- **Nullability.** On a row that fits, an expression that is inferred not to be NULL has a value that is not NULL exactly
if no division by zero, and no `greatest` or `least` of NaN, escapes from it; and the builder refuses no NULL in the row of
a projection exactly if this is so for every column that is published as not nullable. -/
theorem nullability (texts : Texts) (schema : Schema) (row : List Scalar) (hrow : Row.Fits schema ⟨row⟩) :
    (∀ e v, inferNullable schema e = .ok false → eval texts e schema row = .ok v →
      (v.isNull = false ↔ ¬ Escapes texts schema row e)) ∧
    ∀ specs output values, projectSchema schema specs = .ok output → projectValues texts schema specs row = .ok values →
      ((∀ p ∈ values.zip output.fields, checkValue p.1 p.2 ≠ .error (nonNullable p.2)) ↔
        ∀ s ∈ specs, inferNullable schema s.expr = .ok false → ¬ Escapes texts schema row s.expr) := by
  refine ⟨fun e v hn h => ?_, fun specs output values hs hv => ?_⟩
  · rw [← isNull_iff_escapes hrow e hn h, Bool.not_eq_true]
  · exact refuses_none_iff hrow ((projectSchema_ok hs).imp fun _ _ => And.right) (projectValues_ok hv)

/-- A column of numbers that are not NULL. -/
def numbers : Schema := ⟨[⟨"n", .int64, false⟩]⟩

/-- The quotient `10 / n`. -/
def quotient : Expr := .binary .div (.literal (.int64 10)) (.column "n")

theorem nullability_sample : Row.Fits numbers ⟨[.int64 5]⟩ ∧ ((Scalar.int64 2).isNull = false ↔
    ¬ Escapes noTexts numbers [.int64 5] quotient) :=
  have hfits : Row.Fits numbers ⟨[.int64 5]⟩ := by decide
  ⟨hfits, (nullability noTexts numbers [.int64 5] hfits).1 quotient (.int64 2) rfl rfl⟩

/-- A division by zero: inferred and published as not NULL, it is NULL, and the builder refuses the row. -/
theorem divided_by_zero :
    Row.Fits numbers ⟨[.int64 0]⟩ ∧ inferNullable numbers quotient = .ok false ∧
      eval noTexts quotient numbers [.int64 0] = .ok .null ∧
      projectSchema numbers [⟨"q", quotient⟩] = .ok ⟨[⟨"q", .int64, false⟩]⟩ ∧
      projectRow noTexts numbers ⟨[⟨"q", .int64, false⟩]⟩ [⟨"q", quotient⟩] [.int64 0] =
        .error (nonNullable ⟨"q", .int64, false⟩) :=
  ⟨by decide, rfl, rfl, rfl, rfl⟩

end Sparrow.Expression
