import Sparrow.Expression.Results

/-!
# Evaluation of a projection

What a `project` or `map` node publishes (`sparrow-plan/src/bind.rs`) and what it computes
for a row (`sparrow-runtime/src/transform.rs`), and the evaluation of an expression taken
apart along its syntax.

## What is proved

* `eval_binary_ok`, `eval_call_ok` and the like — an expression that evaluates has parts that do.
* `eval_column_ok` — a column of a row that fits has a value that fits.
* `forall₂_eval_of_evalAll` — a projection evaluates each of its expressions.
-/

namespace Sparrow.Expression

open Library Model

variable {texts : Texts} {schema : Schema} {row : List Scalar} {v : Scalar} {e l r : Expr} {T : DataType}

/-! ### Expressions that evaluate -/

theorem eval_around_ok {around : Expr} {wrap : BoundExpr → BoundExpr} {k : Scalar → Result Scalar}
    (hbi : bind schema around = (bind schema e >>= fun b => .ok (wrap b)))
    (he : ∀ b, evalBound texts row (wrap b) = (evalBound texts row b >>= k))
    (h : eval texts around schema row = .ok v) : ∃ w, eval texts e schema row = .ok w ∧ k w = .ok v := by
  obtain ⟨_, hb, h⟩ := bind_eq_ok.mp h
  obtain ⟨b, hi, hwr⟩ := bind_eq_ok.mp (hbi.symm.trans hb)
  cases hwr
  obtain ⟨w, hw, h⟩ := bind_eq_ok.mp ((he b).symm.trans h)
  exact ⟨w, bind_eq_ok.mpr ⟨b, hi, hw⟩, h⟩

theorem eval_cast_ok (h : eval texts (.cast e T) schema row = .ok v) :
    ∃ w, eval texts e schema row = .ok w ∧ cast texts w T false = .ok v :=
  eval_around_ok rfl (fun _ => rfl) h

theorem eval_tryCast_ok (h : eval texts (.tryCast e T) schema row = .ok v) :
    ∃ w, eval texts e schema row = .ok w ∧ cast texts w T true = .ok v :=
  eval_around_ok rfl (fun _ => rfl) h

theorem eval_isNull_ok (h : eval texts (.isNull e) schema row = .ok v) : ∃ b, v = .bool b := by
  obtain ⟨w, -, h⟩ := eval_around_ok rfl (fun _ => rfl) h
  exact ⟨_, (Except.ok.inj h).symm⟩

theorem eval_isNotNull_ok (h : eval texts (.isNotNull e) schema row = .ok v) : ∃ b, v = .bool b := by
  obtain ⟨w, -, h⟩ := eval_around_ok rfl (fun _ => rfl) h
  exact ⟨_, (Except.ok.inj h).symm⟩

theorem eval_not_ok (h : eval texts (.not e) schema row = .ok v) :
    ∃ w, eval texts e schema row = .ok w ∧ ((w = .null ∧ v = .null) ∨ ∃ b, w = .bool b ∧ v = .bool !b) := by
  obtain ⟨w, hw, h⟩ := eval_around_ok rfl (fun _ => rfl) h
  refine ⟨w, hw, ?_⟩
  cases w with
  | bool b => exact .inr ⟨b, rfl, (Except.ok.inj h).symm⟩
  | null => exact .inl ⟨rfl, (Except.ok.inj h).symm⟩
  | _ => cases h

theorem eval_binary_ok {op : BinaryOp} (h : eval texts (.binary op l r) schema row = .ok v) :
    ∃ lv rv, eval texts l schema row = .ok lv ∧ eval texts r schema row = .ok rv ∧ evalBinary op lv rv = .ok v := by
  obtain ⟨_, hb, h⟩ := bind_eq_ok.mp h
  obtain ⟨bl, hl, hb⟩ := bind_eq_ok.mp hb
  obtain ⟨br, hr, hb⟩ := bind_eq_ok.mp hb
  cases hb
  obtain ⟨lv, hlv, h⟩ := bind_eq_ok.mp h
  obtain ⟨rv, hrv, h⟩ := bind_eq_ok.mp h
  exact ⟨lv, rv, bind_eq_ok.mpr ⟨bl, hl, hlv⟩, bind_eq_ok.mpr ⟨br, hr, hrv⟩, h⟩

theorem forall₂_eval_of_evalAll :
    ∀ {es : List Expr} {bs : List BoundExpr} {vals : List Scalar}, bindAll schema es = .ok bs →
      evalAll texts row bs = .ok vals → List.Forall₂ (fun e w => eval texts e schema row = .ok w) es vals
  | [], bs, vals, hb, hv => by
    cases hb
    cases hv
    exact .nil
  | e :: rest, bs, vals, hb, hv => by
    obtain ⟨b, hh, hb⟩ := bind_eq_ok.mp hb
    obtain ⟨bs, ht, hb⟩ := bind_eq_ok.mp hb
    cases hb
    obtain ⟨w, hw, hv⟩ := bind_eq_ok.mp hv
    obtain ⟨ws, hws, hv⟩ := bind_eq_ok.mp hv
    cases hv
    exact .cons (bind_eq_ok.mpr ⟨b, hh, hw⟩) (forall₂_eval_of_evalAll ht hws)

variable {name : String}

/-- A call that evaluates: its function, the values of its arguments, and that the types of the arguments were checked. -/
theorem eval_call_ok {args : List Expr} (h : eval texts (.call name args) schema row = .ok v) :
    ∃ f vals, Function.ofName name = some f ∧ f.checkCallArity args.length = .ok () ∧
      List.Forall₂ (fun a w => eval texts a schema row = .ok w) args vals ∧ evalCallValues texts f vals = .ok v := by
  obtain ⟨_, hb, h⟩ := bind_eq_ok.mp h
  unfold bind at hb
  split at hb
  · cases hb
  case h_2 f hf =>
    obtain ⟨_, ha, hb⟩ := bind_eq_ok.mp hb
    obtain ⟨bs, hbs, rfl⟩ : ∃ bs, bindAll schema args = .ok bs ∧ BoundExpr.call f bs = _ := by
      split_ifs at hb
      · obtain ⟨_, -, hb⟩ := bind_eq_ok.mp hb
        obtain ⟨_, -, hb⟩ := bind_eq_ok.mp hb
        obtain ⟨bs, hbs, hb⟩ := bind_eq_ok.mp hb
        exact ⟨bs, hbs, Except.ok.inj hb⟩
      · obtain ⟨bs, hbs, hb⟩ := bind_eq_ok.mp hb
        exact ⟨bs, hbs, Except.ok.inj hb⟩
    obtain ⟨vals, hv, h⟩ := bind_eq_ok.mp h
    exact ⟨f, vals, hf, ha, forall₂_eval_of_evalAll hbs hv, h⟩

theorem eval_column_ok (hr : Row.Fits schema ⟨row⟩)
    (h : eval texts (.column name) schema row = .ok v) :
    ∃ f, schema.fieldByName name = some f ∧ Field.Takes f v := by
  obtain ⟨_, hb, h⟩ := bind_eq_ok.mp h
  unfold bind at hb
  split at hb
  case h_2 => cases hb
  case h_1 i hi =>
    cases hb
    obtain ⟨hlt, hn, hfi⟩ := List.findIdx?_eq_some_iff_getElem.mp hi
    obtain ⟨w, hw, ht⟩ := hr.takes (List.getElem?_eq_getElem hlt)
    have hf : schema.fieldByName name = some schema.fields[i] :=
      List.find?_eq_some_iff_getElem.mpr ⟨hn, i, hlt, rfl, by simpa using hfi⟩
    refine ⟨_, hf, ?_⟩
    simp only [evalBound, hw] at h
    cases h
    exact ht

/-! ### Projections -/

/-- An expression of a `project` or `map` node, with the name of its column. -/
structure NamedExpr where
  name : String
  expr : Expr

/-- The column of a projected expression: `typed_project_field`. -/
def typedProjectField (schema : Schema) (named : NamedExpr) : Result Field := do
  let ty ← inferType schema named.expr
  let nullable ← inferNullable schema named.expr
  return { name := named.name, dataType := ty, nullable }

/-- The schema that is published for a `project` or `map` node: `project_schema`. -/
def projectSchema (schema : Schema) (specs : List NamedExpr) : Result Schema := do
  let fields ← specs.mapM (typedProjectField schema)
  Schema.validate ⟨fields⟩
  return ⟨fields⟩

/-- The values of a row of a projection, before the builder checks them. -/
def projectValues (texts : Texts) (schema : Schema) (specs : List NamedExpr) (row : List Scalar) :
    Result (List Scalar) := do
  evalAll texts row (← bindAll schema (specs.map NamedExpr.expr))

/-- A row of a projection: what `CompiledTransform::apply` pushes into the builder. -/
def projectRow (texts : Texts) (schema output : Schema) (specs : List NamedExpr) (row : List Scalar) : Result Row := do
  let values ← projectValues texts schema specs row
  checkRow output ⟨values⟩
  return ⟨values⟩

theorem typedProjectField_ok {named : NamedExpr} : (typedProjectField schema named).Ensures fun f =>
    inferType schema named.expr = .ok f.dataType ∧ inferNullable schema named.expr = .ok f.nullable :=
  .bind fun _ hty => .bind fun _ hn => .ok ⟨hty, hn⟩

variable {specs : List NamedExpr}

theorem projectSchema_ok : (projectSchema schema specs).Ensures fun output =>
    List.Forall₂ (fun s f => inferType schema s.expr = .ok f.dataType ∧ inferNullable schema s.expr = .ok f.nullable)
      specs output.fields :=
  .bind fun _ hfi => .bind fun _ _ => .ok ((Result.forall₂_of_mapM hfi).imp fun _ _ hf => typedProjectField_ok hf)

theorem projectValues_ok {values : List Scalar}
    (h : projectValues texts schema specs row = .ok values) :
    List.Forall₂ (fun s w => eval texts s.expr schema row = .ok w) specs values := by
  obtain ⟨bs, hbs, h⟩ := bind_eq_ok.mp h
  exact List.forall₂_map_left_iff.mp (forall₂_eval_of_evalAll hbs h)

/-- The builder's error for NULL in a column that is not nullable. -/
def nonNullable (f : Field) : SparrowError :=
  let name := f.name
  .new .typeMismatch s!"field '{name}' is non-nullable but the row has Null"

variable {f : Field}

theorem checkValue_eq_nonNullable : checkValue v f = .error (nonNullable f) ↔ v.isNull = true ∧ f.nullable = false := by
  unfold checkValue
  constructor
  · intro h
    split_ifs at h with hn ht
    · simpa using hn
    · -- the text of the other error goes on differently after the name
      have hm := congrArg SparrowError.message (Except.error.inj h)
      have hc := congrArg String.toList hm
      simp [nonNullable, SparrowError.new, String.toList_append, toString] at hc
  · intro h
    rw [if_pos (by simpa using h)]
    rfl

/-- The builder's error for a value of another type than its column. -/
def mistyped (f : Field) (v : Scalar) : SparrowError :=
  let name := f.name
  let expected := f.dataType.display
  let got := v.dataType.display
  .new .typeMismatch s!"field '{name}' expected {expected}, got {got}"

theorem checkValue_eq_mistyped :
    checkValue v f = .error (mistyped f v) ↔ v.isNull = false ∧ v.matchesType f.dataType = false := by
  unfold checkValue
  constructor
  · intro h
    split_ifs at h with hn ht
    · have hm := congrArg SparrowError.message (Except.error.inj h)
      have hc := congrArg String.toList hm
      simp [mistyped, SparrowError.new, String.toList_append, toString] at hc
    · simpa using ht
  · intro h
    rw [if_neg (by simp [h.1]), if_pos (by simpa using h)]
    rfl

/-- Libraries that read nothing, for the samples. -/
def noTexts : Texts where
  parseF64 _ := none
  displayF64 _ := ""
  parseRfc3339 _ := none
  fromTimestampMicros _ := none
  base64Encode _ := ""
  base64Decode _ := none
  sha256 b := b
  encodeScalar _ _ := .ok []
  decodeDynamicJson _ := .ok .null

end Sparrow.Expression
