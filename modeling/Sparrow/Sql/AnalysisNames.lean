import Sparrow.Expression.Project
import Sparrow.Library.Machine
import Sparrow.Plan.JoinSpec

/-!
# Names in bounded-analysis SQL

`sparrow-sql/src/analysis.rs`, with `sql_expr` of `bind.rs`: a SELECT over a bounded join or an
UNNEST reads the rows of that operator, whose columns have names of their own. `rewrite` puts these
names in the place of `alias.column` and `column`, and `sql_expr` binds what comes out. It drops the
qualifiers that are left.

## The model

An expression is a reference, a literal, or a form with its parts. What `value_to_scalar`, `map_op`
and `map_sql_type` answer is part of it, and whether a call passes the check of its modifiers. The
gate before the binder, the ON clause (its keys and bounds are in the specification of the join) and
plugin calls are left out.

## The argument

`rewrite` does not enter BETWEEN, IN, SUBSTRING, TRIM, CEIL and FLOOR, which `sql_expr` binds all the
same. A reference in there becomes the output column of its last name (`Kept`), whichever relation
that is of. A name that no relation has stays as it is, and may be that of an output column. Where
neither happens (`Clear`) the names mean what they say (`clear_iff`), and two readings that differ in
the aliases alone are bound to the same columns (`alike_rename`).

* `names_bound_iff` — the names are bound as they are meant exactly if the expression is clear.
-/

namespace Sparrow.Sql

open Library Model Expression List
open Plan (StreamJoinSpec joinOutput joinFields joinOutput_ok)

def invalid (message : String) : SparrowError := .new .invalidArgument message

/-! ### Expressions -/

/-- The forms with parts; all that `sql_expr` refuses is `other`. -/
inductive Form where
  | unary (isNot : Bool)
  | isNull
  | isNotNull
  | nested
  | binary (op : Result BinaryOp)
  | cast (attempt : Bool) (target : Result DataType)
  /-- All arguments are positional; the modifiers are accepted. -/
  | function (name : String) (positional plain : Bool)
  | between (negated : Bool)
  | inList (negated : Bool)
  | substring
  | trim
  | ceil
  | floor
  | other

inductive SqlExpr where
  | identifier (name : String)
  | compound (parts : List String)
  | value (v : Result Scalar)
  | node (form : Form) (parts : List SqlExpr)

theorem SqlExpr.induction {P : SqlExpr → Prop} (identifier : ∀ name, P (.identifier name))
    (compound : ∀ parts, P (.compound parts)) (value : ∀ v, P (.value v))
    (node : ∀ form parts, (∀ p ∈ parts, P p) → P (.node form parts)) : ∀ e, P e :=
  @SqlExpr.rec P (fun parts => ∀ p ∈ parts, P p) identifier compound value node (fun _ h => absurd h not_mem_nil)
    fun _ _ hh ht => List.forall_mem_cons.mpr ⟨hh, ht⟩

/-- `Scope`: the aliases, with the output column of each of their columns. -/
abbrev Scope := List (String × List (String × String))

/-- What a name stands for. -/
structure Names where
  qualified : List String → Result String
  unqualified : String → Result String

/-- The two kinds of references, given the column of an alias, the columns of a name, and what becomes of a name that no
alias has. -/
def Names.of (column : String → String → Option String) (found : String → List String)
    (other : String → Result String) :
    Names where
  qualified
    | [owner, name] => (column owner name).elim (.error (invalid "unknown qualified column")) .ok
    | _ => .error (invalid "expected alias.column")
  unqualified name :=
    match found name with
    | [] => other name
    | [output] => .ok output
    | _ => .error (invalid "ambiguous unqualified column")

/-- The names as `rewrite` reads them: one that is in no scope stays as it is. -/
def Scope.names (scope : Scope) : Names :=
  .of (fun owner name => (scope.lookup owner).bind (·.lookup name)) (fun name => scope.filterMap (·.2.lookup name)) .ok

/-- The forms that `rewrite` enters. -/
def Form.entered : Form → Bool
  | .unary _ | .isNull | .isNotNull | .nested | .binary _ | .cast .. | .function .. => true
  | _ => false

def Form.positional : Form → Bool
  | .function _ positional _ => positional
  | _ => true

mutual

/-- The references of an expression are replaced in the forms that are entered; `ok` is a check of these. -/
def rename (enter ok : Form → Bool) (names : Names) : SqlExpr → Result SqlExpr
  | .identifier name => do return .identifier (← names.unqualified name)
  | .compound parts => do return .identifier (← names.qualified parts)
  | .value v => .ok (.value v)
  | .node form parts =>
    if enter form then do
      refuseIf (ok form = false) (invalid "analysis scalar calls require positional expressions")
      return .node form (← renameAll enter ok names parts)
    else .ok (.node form parts)

def renameAll (enter ok : Form → Bool) (names : Names) : List SqlExpr → Result (List SqlExpr)
  | [] => .ok []
  | e :: es => do return (← rename enter ok names e) :: (← renameAll enter ok names es)

end

/-- `rewrite`. -/
def rewrite (names : Names) : SqlExpr → Result SqlExpr := rename Form.entered Form.positional names

/-- `e = i OR ...`. -/
def anyOf (e : Expr) : List Expr → Expr
  | [] => .literal (.bool false)
  | i :: items => items.foldl (fun acc i => .binary .or acc (.binary .eq e i)) (.binary .eq e i)

def negate (negated : Bool) (e : Expr) : Expr := if negated then .not e else e

/-- The checks of `map_function` on the number of arguments. -/
def checkArguments (name : String) (n : ℕ) : Result Unit := do
  let lower := toAsciiLowercase name
  refuseIf (lower ∈ ["abs", "lower", "upper", "length", "char_length"] ∧ n ≠ 1)
    (invalid s!"{name} requires 1 argument, got {n}")
  refuseIf (lower = "coalesce" ∧ n = 0) (invalid "coalesce requires at least 1 argument")

/-- What `sql_expr` makes of a form and its bound parts. -/
def Form.assemble : Form → List Expr → Result Expr
  | .isNull, [e] => .ok (.isNull e)
  | .isNotNull, [e] => .ok (.isNotNull e)
  | .unary true, [e] => .ok (.not e)
  | .nested, [e] => .ok e
  | .between negated, [e, low, high] =>
    .ok (negate negated (.binary .and (.binary .gte e low) (.binary .lte e high)))
  | .inList negated, e :: items => .ok (negate negated (anyOf e items))
  | .binary op, [l, r] => op.map (.binary · l r)
  | .cast attempt target, [e] => target.map fun t => if attempt then .tryCast e t else .cast e t
  | .substring, [e, start, count] => .ok (.call "substring" [e, start, count])
  | .trim, [e] => .ok (.call "trim" [e])
  | .ceil, [e] => .ok (.call "ceil" [e])
  | .floor, [e] => .ok (.call "floor" [e])
  | .function name _ plain, args => do
    refuseIf (plain = false)
      (.new .featureUnavailable "pure builtins require positional scalar arguments without modifiers")
    checkArguments name args.length
    return .call name args
  | _, _ => .error (.new .featureUnavailable "expression is not bindable")

def lastName (parts : List String) : String := parts.getLast?.getD ""

mutual

/-- `sql_expr`. -/
def sqlExpr : SqlExpr → Result Expr
  | .identifier name => .ok (.column name)
  | .compound parts => .ok (.column (lastName parts))
  | .value v => do return .literal (← v)
  | .node form parts => do form.assemble (← sqlExprAll parts)

def sqlExprAll : List SqlExpr → Result (List Expr)
  | [] => .ok []
  | e :: es => do return (← sqlExpr e) :: (← sqlExprAll es)

end

/-! ### Statements -/

/-- What a SELECT reads. -/
inductive Relation where
  | join (leftAlias rightAlias : String) (left right : Schema) (spec : StreamJoinSpec)
  | unnest (leftAlias : String) (left : Schema) (elementAlias : String) (columns : List String) (ordinality : Bool)
      (array : SqlExpr)

/-- `scope`. -/
def scope (schema : Schema) (pre : String) : List (String × String) :=
  schema.fields.map fun f => (f.name, pre ++ f.name)

/-- The columns that UNNEST adds after the element. -/
def metadata : List String := ["unnest_source", "unnest_input", "unnest_ordinal"]

/-- The type of the elements of an expression of a type. -/
def elementType : DataType → Result DataType
  | .array t => .ok t
  | .dynamic | .null => .ok .dynamic
  | _ => .error (invalid "UNNEST expression must be Array or Dynamic")

/-- `AnalysisPlan::unnest`: the schema of the rows sent. -/
def unnestOutput (expr : Expr) (item : String) (input : Schema) : Result Schema := do
  refuseIf (item = "" ∨ (utf8Bytes item).length > 128 ∨ input.fields.length > 128)
    (invalid "UNNEST requires <=128 input fields, a name, max_rows=1..4096 and max_bytes=1..16MiB")
  let element ← elementType (← inferType input expr)
  let output : Schema := ⟨input.fields ++ ⟨item, element, true⟩ ::
    metadata.map fun name => ⟨name, .int64, name = "unnest_source"⟩⟩
  output.validate
  return output

/-- The expression that an UNNEST takes apart, over the rows of its left side. -/
def arrayExpr (leftAlias : String) (left : Schema) (array : SqlExpr) : Result Expr := do
  sqlExpr (← rewrite (Scope.names [(leftAlias, scope left "")]) array)

namespace Relation

/-- The scopes of the two aliases. -/
def scopes : Relation → Scope
  | .join la ra left right _ => [(la, scope left (la ++ "_")), (ra, scope right (ra ++ "_"))]
  | .unnest la left ea columns _ _ =>
    [(la, scope left ""), (ea, (columns.drop 1).map (·, "unnest_ordinal") ++
      (columns.take 1 ++ metadata).map fun c => (c, c))]

/-- The checks of `bind` up to the operator, and the schema of its rows. -/
def output : Relation → Result Schema
  | .join la ra left right spec => do
    refuseIf (ra = la) (invalid "join aliases must differ")
    joinOutput { spec with leftPrefix := la ++ "_", rightPrefix := ra ++ "_" } left right
  | .unnest la left ea columns ordinality array => do
    refuseIf (ea = la ∨ columns = [] ∨ columns.length > if ordinality then 2 else 1)
      (invalid "invalid UNNEST alias/column list")
    let expr ← arrayExpr la left array
    let output ← unnestOutput expr (columns.headD "") left
    refuseIf (∃ c ∈ columns.drop 1, c ∈ columns.take 1 ++ metadata)
      (invalid "UNNEST ordinal alias conflicts with an element/metadata name")
    return output

/-- Where a row of the output has a column of the relation with an alias. -/
def position (owner name : String) : Relation → Option ℕ
  | .join la ra left right _ =>
    if owner = la then left.indexOfName name
    else if owner = ra then (right.indexOfName name).map (left.fields.length + ·)
    else none
  | .unnest la left ea columns _ _ =>
    if owner = la then left.indexOfName name
    else if owner = ea then
      if name ∈ columns.drop 1 then some (left.fields.length + 3)
      else ((columns.take 1 ++ metadata).findIdx? (· = name)).map (left.fields.length + ·)
    else none

/-- The output column that has the column of the relation with an alias. -/
def carrier (r : Relation) (output : Schema) (owner name : String) : Option String :=
  (r.position owner name).bind fun i => (output.fields[i]?).map (·.name)

def aliases : Relation → List String
  | .join la ra .. => [la, ra]
  | .unnest la _ ea .. => [la, ea]

/-- The columns that the operator adds, which are of neither relation. -/
def own : Relation → List String
  | .join .. => ["join_time", "join_left_ordinal", "join_right_ordinal"]
  | .unnest .. => []

/-- What the names of a SELECT are meant to be. A name that neither relation has is one of the operator's own columns,
or refused. -/
def names (r : Relation) (output : Schema) : Names :=
  .of (r.carrier output) (fun name => r.aliases.filterMap (r.carrier output · name))
    fun name => if name ∈ r.own then .ok name else .error (invalid "unknown column")

end Relation

/-! ### What is meant -/

/-- Every reference is replaced by what it stands for, wherever it is. -/
def resolve (names : Names) : SqlExpr → Result SqlExpr := rename (fun _ => true) (fun _ => true) names

mutual

/-- The references as `sql_expr` binds them, without their qualifiers. -/
def bare : SqlExpr → SqlExpr
  | .identifier name => .identifier name
  | .compound parts => .identifier (lastName parts)
  | .value v => .value v
  | .node form parts => .node form (bareAll parts)

def bareAll : List SqlExpr → List SqlExpr
  | [] => []
  | e :: es => bare e :: bareAll es

end

/-- Every reference is meant to be the output column of its last name. -/
inductive Kept (names : Names) : SqlExpr → Prop
  | identifier {name : String} (h : names.unqualified name = .ok name) : Kept names (.identifier name)
  | compound {parts : List String} (h : names.qualified parts = .ok (lastName parts)) : Kept names (.compound parts)
  | value (v : Result Scalar) : Kept names (.value v)
  | node {form : Form} {parts : List SqlExpr} (h : ∀ p ∈ parts, Kept names p) : Kept names (.node form parts)

/-- Every unqualified name is known, and every reference in a form that `rewrite` does not enter is meant to be the
output column of its last name. -/
inductive Clear (names : Names) : SqlExpr → Prop
  | identifier {name column : String} (h : names.unqualified name = .ok column) : Clear names (.identifier name)
  | compound (parts : List String) : Clear names (.compound parts)
  | value (v : Result Scalar) : Clear names (.value v)
  | entered {form : Form} {parts : List SqlExpr} (hform : form.entered = true) (h : ∀ p ∈ parts, Clear names p) :
      Clear names (.node form parts)
  | skipped {form : Form} {parts : List SqlExpr} (hform : form.entered = false) (h : ∀ p ∈ parts, Kept names p) :
      Clear names (.node form parts)

/-! ### References are bound as meant -/

variable {names : Names}

theorem renameAll_eq (enter ok : Form → Bool) (names : Names) (es : List SqlExpr) :
    renameAll enter ok names es = es.mapM (rename enter ok names) := by
  induction es with
  | nil => rfl
  | cons e es ih => rw [renameAll, ih, mapM_cons]

theorem bareAll_eq (es : List SqlExpr) : bareAll es = es.map bare := by
  induction es with
  | nil => rfl
  | cons e es ih => rw [bareAll, ih, map_cons]

theorem sqlExpr_bare (e : SqlExpr) : sqlExpr (bare e) = sqlExpr e := by
  induction e using SqlExpr.induction with
  | node form parts ih =>
    have ha : sqlExprAll (bareAll parts) = sqlExprAll parts := by
      induction parts with
      | nil => rfl
      | cons e es ih' => rw [bareAll, sqlExprAll, sqlExprAll, ih e (by simp), ih' fun p hp => ih p (by simp [hp])]
    rw [bare, sqlExpr, sqlExpr, ha]
  | _ => rfl

/-- Elements answered one by one are answered as a list. -/
theorem resolve_node {form : Form} {parts ps : List SqlExpr} {g : SqlExpr → Result SqlExpr} {C : SqlExpr → Prop}
    (hps : parts.mapM g = .ok ps) (h : ∀ p ∈ parts, ∀ q, g p = .ok q → (resolve names p = .ok (bare q) ↔ C p)) :
    resolve names (.node form parts) = .ok (bare (.node form ps)) ↔ ∀ p ∈ parts, C p := by
  have ha : parts.mapM (resolve names) = .ok (ps.map bare) ↔ ∀ p ∈ parts, C p := by
    induction parts generalizing ps with
    | nil =>
      cases hps
      simp [pure, Except.pure]
    | cons e es ih =>
      rw [mapM_cons] at hps ⊢
      obtain ⟨q, hq, hps⟩ := bind_eq_ok.mp hps
      obtain ⟨qs, hqs, hps⟩ := bind_eq_ok.mp hps
      cases hps
      rw [forall_mem_cons, ← h e (by simp) q hq, ← ih hqs fun p hp => h p (by simp [hp]), map_cons]
      constructor
      · intro hr
        obtain ⟨x, hx, hr⟩ := bind_eq_ok.mp hr
        obtain ⟨xs, hxs, hr⟩ := bind_eq_ok.mp hr
        cases hr
        exact ⟨hx, hxs⟩
      · rintro ⟨hx, hxs⟩
        exact bind_eq_ok.mpr ⟨_, hx, bind_eq_ok.mpr ⟨_, hxs, rfl⟩⟩
  rw [← ha, resolve, rename, if_pos rfl, renameAll_eq, bare, bareAll_eq]
  constructor
  · intro hr
    obtain ⟨-, hr⟩ := guard_eq_ok.mp hr
    obtain ⟨xs, hxs, hr⟩ := bind_eq_ok.mp hr
    cases hr
    exact hxs
  · intro hxs
    exact guard_eq_ok.mpr ⟨by simp, bind_eq_ok.mpr ⟨_, hxs, rfl⟩⟩

theorem leaf_eq_ok {x : Result String} {column : String} :
    (do return SqlExpr.identifier (← x) : Result SqlExpr) = .ok (.identifier column) ↔ x = .ok column := by
  constructor
  · intro h
    obtain ⟨name, hx, h⟩ := bind_eq_ok.mp h
    cases h
    exact hx
  · intro hx
    exact bind_eq_ok.mpr ⟨column, hx, rfl⟩

theorem kept_iff (names : Names) (e : SqlExpr) : resolve names e = .ok (bare e) ↔ Kept names e := by
  induction e using SqlExpr.induction with
  | identifier name => exact leaf_eq_ok.trans ⟨.identifier, fun h => (by cases h; assumption)⟩
  | compound parts => exact leaf_eq_ok.trans ⟨.compound, fun h => (by cases h; assumption)⟩
  | value v => exact iff_of_true rfl (.value v)
  | node form parts ih =>
    have hid : parts.mapM Except.ok = (.ok parts : Result (List SqlExpr)) := by
      simpa using Result.mapM_ok (l := parts) (g := id) fun a _ => rfl
    rw [resolve_node (C := Kept names) hid fun p hp q hq => by cases hq; exact ih p hp]
    exact ⟨.node, fun h => (by cases h; assumption)⟩

/-- What is meant is what `code` says, or a refusal. -/
structure Names.Within (names code : Names) : Prop where
  qualified : names.qualified = code.qualified
  unqualified : ∀ name column, names.unqualified name = .ok column → code.unqualified name = .ok column

theorem clear_iff {names code : Names} (hw : names.Within code) {e e' : SqlExpr} (h : rewrite code e = .ok e') :
    resolve names e = .ok (bare e') ↔ Clear names e := by
  induction e using SqlExpr.induction generalizing e' with
  | identifier name =>
    obtain ⟨column, hc, h⟩ := bind_eq_ok.mp h
    cases h
    refine leaf_eq_ok.trans ⟨.identifier, ?_⟩
    rintro ⟨hn⟩
    rw [hn, ← hc, hw.unqualified _ _ hn]
  | compound parts =>
    obtain ⟨column, hc, h⟩ := bind_eq_ok.mp h
    cases h
    rw [← hw.qualified] at hc
    exact iff_of_true (leaf_eq_ok.mpr hc) (.compound parts)
  | value v =>
    cases h
    exact iff_of_true rfl (.value v)
  | node form parts ih =>
    rw [rewrite, rename] at h
    cases hf : form.entered with
    | true =>
      rw [hf, if_pos rfl, renameAll_eq] at h
      obtain ⟨-, h⟩ := guard_eq_ok.mp h
      obtain ⟨ps, hps, h⟩ := bind_eq_ok.mp h
      cases h
      rw [resolve_node hps fun p hp q hq => ih p hp hq]
      constructor
      · exact .entered hf
      · intro h
        cases h with
        | entered _ h => exact h
        | skipped h => cases hf.symm.trans h
    | false =>
      rw [hf, if_neg (by simp)] at h
      cases h
      rw [kept_iff]
      constructor
      · intro h
        cases h with
        | node h => exact .skipped hf h
      · intro h
        cases h with
        | entered h => cases hf.symm.trans h
        | skipped _ h => exact .node h

/-! ### The names of the scopes -/

theorem lookup_map (cs : List String) (f : String → String) (name : String) :
    (cs.map fun c => (c, f c)).lookup name = if name ∈ cs then some (f name) else none := by
  induction cs with
  | nil => rfl
  | cons c cs ih =>
    rw [map_cons, lookup_cons, ih]
    by_cases hc : name = c
    · simp [hc]
    · simp [hc, beq_eq_false_iff_ne.mpr hc]

/-- The columns of a list in the middle of another one, found by their names. -/
theorem column_at {ns a cs z : List String} {f : String → String} {k : ℕ}
    (hns : ns = a ++ (cs.map f ++ z)) (hk : a.length = k)
    (name : String) : ((cs.findIdx? (· = name)).map (k + ·)).bind (fun i => ns[i]?) =
      (cs.map fun c => (c, f c)).lookup name := by
  subst hns hk
  rw [lookup_map]
  cases h : cs.findIdx? (· = name) with
  | none =>
    rw [if_neg fun hm => ?_]
    · rfl
    · simpa using List.findIdx?_eq_none_iff.mp h name hm
  | some i =>
    obtain ⟨hi, hn, -⟩ := List.findIdx?_eq_some_iff_getElem.mp h
    replace hn : cs[i] = name := by simpa using hn
    rw [if_pos (hn ▸ getElem_mem hi)]
    simp [getElem?_append_right, getElem?_append_left, hi, hn]

theorem names_of_pair {a₁ a₂ : String} {m₁ m₂ : List (String × String)} {column : String → String → Option String}
    (hne : a₂ ≠ a₁) (h₁ : ∀ name, column a₁ name = m₁.lookup name) (h₂ : ∀ name, column a₂ name = m₂.lookup name)
    (ho : ∀ owner name, owner ≠ a₁ → owner ≠ a₂ → column owner name = none) :
    Scope.names [(a₁, m₁), (a₂, m₂)] = .of column (fun name => [a₁, a₂].filterMap (column · name)) .ok := by
  have hc : (fun owner name => (List.lookup owner [(a₁, m₁), (a₂, m₂)]).bind (·.lookup name)) = column := by
    funext owner name
    by_cases ho₁ : owner = a₁
    · simp [ho₁, h₁]
    · by_cases ho₂ : owner = a₂
      · simp [ho₂, h₂, lookup_cons, beq_eq_false_iff_ne.mpr hne]
      · simp [lookup_cons, beq_eq_false_iff_ne.mpr ho₁, beq_eq_false_iff_ne.mpr ho₂, ho owner name ho₁ ho₂]
  rw [Scope.names, hc]
  simp only [filterMap_cons, filterMap_nil, h₁, h₂]

/-- The columns of the rows of an accepted relation have names of their own, and are those of the two sides with what
the operator adds. -/
theorem Relation.output_ok {r : Relation} {output : Schema} (h : r.output = .ok output) :
    (output.fields.map Field.name).Nodup ∧ match r with
      | .join la ra left right spec => ra ≠ la ∧
        output.fields = joinFields { spec with leftPrefix := la ++ "_", rightPrefix := ra ++ "_" } left right
      | .unnest la left ea columns _ array => ea ≠ la ∧ ∃ c cs expr t t', columns = c :: cs ∧
        arrayExpr la left array = .ok expr ∧ inferType left expr = .ok t ∧ elementType t = .ok t' ∧
        output.fields = left.fields ++ ⟨c, t', true⟩ :: metadata.map fun name =>
          ⟨name, .int64, name = "unnest_source"⟩ := by
  cases r with
  | join la ra left right spec =>
    obtain ⟨hne, h⟩ := guard_eq_ok.mp h
    obtain ⟨-, -, -, -, -, rfl, hv⟩ := joinOutput_ok h
    exact ⟨Schema.validate_nodup _ hv, hne, rfl⟩
  | unnest la left ea columns ordinality array =>
    obtain ⟨hl, h⟩ := guard_eq_ok.mp h
    obtain ⟨hne, hl⟩ := not_or.mp hl
    obtain ⟨expr, he, h⟩ := bind_eq_ok.mp h
    obtain ⟨_, ho, h⟩ := bind_eq_ok.mp h
    obtain ⟨-, h⟩ := guard_eq_ok.mp h
    cases h
    obtain ⟨-, ho⟩ := guard_eq_ok.mp ho
    obtain ⟨t, ht, ho⟩ := bind_eq_ok.mp ho
    obtain ⟨t', ht', ho⟩ := bind_eq_ok.mp ho
    obtain ⟨_, hv, ho⟩ := bind_eq_ok.mp ho
    cases ho
    cases columns with
    | nil => simp at hl
    | cons c cs => exact ⟨Schema.validate_nodup _ hv, hne, c, cs, expr, t, t', rfl, he, ht, ht', rfl⟩

theorem Relation.scopes_names {r : Relation} {output : Schema} (h : r.output = .ok output) : r.scopes.names =
    .of (r.carrier output) (fun name => r.aliases.filterMap (r.carrier output · name)) .ok := by
  have hc : ∀ owner name, r.carrier output owner name =
      (r.position owner name).bind fun i => (output.fields.map Field.name)[i]? := by
    simp [carrier]
  have hi : ∀ (s : Schema) name, s.indexOfName name = ((s.fields.map Field.name).findIdx? (· = name)).map (0 + ·) := by
    simp [Schema.indexOfName, findIdx?_map, Function.comp_def]
  have hs : ∀ (s : Schema) pre, scope s pre = (s.fields.map Field.name).map fun c => (c, pre ++ c) := by
    simp [scope]
  replace h := (output_ok h).2
  cases r with
  | join la ra left right spec =>
    obtain ⟨hne, hf⟩ := h
    have hn : output.fields.map Field.name = (left.fields.map Field.name).map (la ++ "_" ++ ·) ++
        ((right.fields.map Field.name).map (ra ++ "_" ++ ·) ++
          ["join_time", "join_left_ordinal", "join_right_ordinal"]) := by
      simp [hf, joinFields, Function.comp_def]
    refine names_of_pair hne (fun name => ?_) (fun name => ?_) fun owner name hl hr => ?_
    · rw [hc, position, if_pos rfl, hi, hs]
      exact column_at (a := []) hn rfl name
    · rw [hc, position, if_neg hne, if_pos rfl, hi, hs, Option.map_map]
      simpa [Function.comp_def] using column_at hn rfl name
    · rw [hc, position, if_neg hl, if_neg hr]
      rfl
  | unnest la left ea columns ordinality array =>
    obtain ⟨hne, c, cs, _, _, _, rfl, -, -, -, hf⟩ := h
    have hn : output.fields.map Field.name = left.fields.map Field.name ++ ([c] ++ metadata) := by
      simp [hf, metadata]
    refine names_of_pair hne (fun name => ?_) (fun name => ?_) fun owner name hl hr => ?_
    · rw [hc, position, if_pos rfl, hi, hs]
      exact column_at (a := []) (z := [c] ++ metadata) (by simp [hn, Function.comp_def]) rfl name
    · rw [hc, position, if_neg hne, if_pos rfl, lookup_append, lookup_map _ fun _ => "unnest_ordinal"]
      split_ifs with hd
      · simp [hn, metadata]
      · have hid : output.fields.map Field.name = left.fields.map Field.name ++ (([c] ++ metadata).map id ++ []) := by
          simpa using hn
        exact column_at hid (by simp) name
    · rw [hc, position, if_neg hl, if_neg hr]
      rfl

theorem Relation.names_within {r : Relation} {output : Schema} (h : r.output = .ok output) :
    (r.names output).Within r.scopes.names := by
  rw [Relation.scopes_names h]
  refine ⟨rfl, fun name column hc => ?_⟩
  simp only [names, Names.of] at hc ⊢
  split at hc
  · split_ifs at hc
    exact hc
  · exact hc
  · cases hc

/-! ### Other aliases -/

/-- `alias.column` under another name of the alias. -/
def realiasParts (ρ : String → String) : List String → List String
  | [owner, name] => [ρ owner, name]
  | parts => parts

mutual

/-- An expression with its aliases renamed. -/
def SqlExpr.realias (ρ : String → String) : SqlExpr → SqlExpr
  | .identifier name => .identifier name
  | .compound parts => .compound (realiasParts ρ parts)
  | .value v => .value v
  | .node form parts => .node form (realiasAll ρ parts)

/-- The expressions of a list with their aliases renamed. -/
def realiasAll (ρ : String → String) : List SqlExpr → List SqlExpr
  | [] => []
  | e :: es => e.realias ρ :: realiasAll ρ es

end

/-- The same statement with its aliases renamed. -/
def Relation.realias (ρ : String → String) : Relation → Relation
  | .join la ra left right spec => .join (ρ la) (ρ ra) left right spec
  | .unnest la left ea columns ordinality array => .unnest (ρ la) left (ρ ea) columns ordinality (array.realias ρ)

/-- What an expression over one schema computes is what another one computes over another schema. -/
structure Alike (s s' : Schema) (a a' : Expr) : Prop where
  typed : ∀ {t}, inferType s a = .ok t → inferType s' a' = .ok t
  bound : ∀ {b}, bind s a = .ok b → bind s' a' = .ok b

variable {s s' : Schema} {ρ : String → String}

theorem Alike.refl (s : Schema) (a : Expr) : Alike s s a a := ⟨id, id⟩

theorem bind_imp {α β : Type} {x y : Result α} {f g : α → Result β} {b : β} (h : ∀ {a}, x = .ok a → y = .ok a)
    (hf : ∀ a {b}, f a = .ok b → g a = .ok b) (hx : (x >>= f) = .ok b) : (y >>= g) = .ok b := by
  obtain ⟨a, ha, hb⟩ := bind_eq_ok.mp hx
  exact bind_eq_ok.mpr ⟨a, h ha, hf a hb⟩

section

variable {a a' c c' : Expr} (h : Alike s s' a a')

include h

theorem Alike.not : Alike s s' (.not a) (.not a') := ⟨id, bind_imp h.bound fun _ => id⟩

theorem Alike.isNull : Alike s s' (.isNull a) (.isNull a') := ⟨id, bind_imp h.bound fun _ => id⟩

theorem Alike.isNotNull : Alike s s' (.isNotNull a) (.isNotNull a') := ⟨id, bind_imp h.bound fun _ => id⟩

theorem Alike.cast (t : DataType) : Alike s s' (.cast a t) (.cast a' t) :=
  ⟨bind_imp h.typed fun _ => id, bind_imp h.bound fun _ => id⟩

theorem Alike.tryCast (t : DataType) : Alike s s' (.tryCast a t) (.tryCast a' t) :=
  ⟨bind_imp h.typed fun _ => id, bind_imp h.bound fun _ => id⟩

theorem Alike.binary (hc : Alike s s' c c') (op : BinaryOp) : Alike s s' (.binary op a c) (.binary op a' c') :=
  ⟨bind_imp h.typed fun _ => bind_imp hc.typed fun _ => id, bind_imp h.bound fun _ => bind_imp hc.bound fun _ => id⟩

theorem Alike.negate (negated : Bool) : Alike s s' (negate negated a) (negate negated a') := by
  cases negated with
  | true => exact h.not
  | false => exact h

theorem Alike.anyOf {items items' : List Expr} (hi : Forall₂ (Alike s s') items items') :
    Alike s s' (anyOf a items) (anyOf a' items') := by
  have hf : ∀ {items items' : List Expr}, Forall₂ (Alike s s') items items' → ∀ {c c'}, Alike s s' c c' →
      Alike s s' (items.foldl (fun acc i => .binary .or acc (.binary .eq a i)) c)
        (items'.foldl (fun acc i => .binary .or acc (.binary .eq a' i)) c') := by
    intro items items' hi
    induction hi with
    | nil => exact fun hc => hc
    | cons hx _ ih => exact fun hc => ih (hc.binary (h.binary hx .eq) .or)
  cases hi with
  | nil => exact ⟨id, id⟩
  | cons hx hi => exact hf hi (h.binary hx .eq)

end

theorem Alike.call {args args' : List Expr} (h : Forall₂ (Alike s s') args args') (name : String) :
    Alike s s' (.call name args) (.call name args') := by
  have ha : (∀ {ts}, inferTypes s args = .ok ts → inferTypes s' args' = .ok ts) ∧
      ∀ {bs}, bindAll s args = .ok bs → bindAll s' args' = .ok bs := by
    induction h with
    | nil => exact ⟨id, id⟩
    | cons hx _ ih => exact ⟨bind_imp hx.typed fun _ => bind_imp ih.1 fun _ => id,
        bind_imp hx.bound fun _ => bind_imp ih.2 fun _ => id⟩
  constructor
  · intro t ht
    unfold inferType at ht ⊢
    rw [← h.length_eq]
    cases hf : Function.ofName name with
    | none =>
      rw [hf] at ht
      exact bind_imp ha.1 (fun _ => id) ht
    | some f =>
      simp only [hf] at ht ⊢
      split_ifs at ht ⊢ with hb <;> exact bind_imp id (fun _ => bind_imp ha.1 fun _ => id) ht
  · intro b hb
    unfold Expression.bind at hb ⊢
    rw [← h.length_eq]
    cases hf : Function.ofName name with
    | none => simp [hf] at hb
    | some f =>
      simp only [hf] at hb ⊢
      refine bind_imp id (fun _ {b} hb => ?_) hb
      split_ifs at hb ⊢
      · exact bind_imp ha.1 (fun _ => bind_imp id fun _ => bind_imp ha.2 fun _ => id) hb
      · exact bind_imp ha.2 (fun _ => id) hb

/-- A form makes the same of parts that are alike. -/
theorem Alike.assemble {form : Form} {args args' : List Expr} (h : Forall₂ (Alike s s') args args') {a a' : Expr}
    (ha : form.assemble args = .ok a) (ha' : form.assemble args' = .ok a') : Alike s s' a a' := by
  unfold Form.assemble at ha
  split at ha
  · obtain _ | ⟨h₁, _ | _⟩ := h
    cases ha; cases ha'
    exact h₁.isNull
  · obtain _ | ⟨h₁, _ | _⟩ := h
    cases ha; cases ha'
    exact h₁.isNotNull
  · obtain _ | ⟨h₁, _ | _⟩ := h
    cases ha; cases ha'
    exact h₁.not
  · obtain _ | ⟨h₁, _ | _⟩ := h
    cases ha; cases ha'
    exact h₁
  · obtain _ | ⟨h₁, _ | ⟨h₂, _ | ⟨h₃, _ | _⟩⟩⟩ := h
    cases ha; cases ha'
    exact ((h₁.binary h₂ .gte).binary (h₁.binary h₃ .lte) .and).negate _
  · obtain _ | ⟨h₁, h⟩ := h
    cases ha; cases ha'
    exact (h₁.anyOf h).negate _
  · obtain _ | ⟨h₁, _ | ⟨h₂, _ | _⟩⟩ := h
    obtain ⟨op, hop, rfl⟩ := map_eq_ok.mp ha
    obtain ⟨op', ho', rfl⟩ := map_eq_ok.mp ha'
    cases hop.symm.trans ho'
    exact h₁.binary h₂ op
  · obtain _ | ⟨h₁, _ | _⟩ := h
    obtain ⟨t, ht, rfl⟩ := map_eq_ok.mp ha
    obtain ⟨t', ht', rfl⟩ := map_eq_ok.mp ha'
    cases ht.symm.trans ht'
    split_ifs
    · exact h₁.tryCast t
    · exact h₁.cast t
  · obtain _ | ⟨h₁, _ | ⟨h₂, _ | ⟨h₃, _ | _⟩⟩⟩ := h
    cases ha; cases ha'
    exact .call (.cons h₁ (.cons h₂ (.cons h₃ .nil))) _
  iterate 3
    · obtain _ | ⟨h₁, _ | _⟩ := h
      cases ha; cases ha'
      exact .call (.cons h₁ .nil) _
  · obtain ⟨-, ha⟩ := guard_eq_ok.mp ha
    obtain ⟨-, ha'⟩ := guard_eq_ok.mp ha'
    obtain ⟨_, -, ha⟩ := bind_eq_ok.mp ha
    obtain ⟨_, -, ha'⟩ := bind_eq_ok.mp ha'
    cases ha; cases ha'
    exact .call h _
  · cases ha

theorem realiasAll_eq (ρ : String → String) (es : List SqlExpr) : realiasAll ρ es = es.map (·.realias ρ) := by
  induction es with
  | nil => rfl
  | cons e es ih => rw [realiasAll, ih, map_cons]

/-- `sql_expr` drops the aliases. -/
theorem sqlExpr_realias (ρ : String → String) (e : SqlExpr) : sqlExpr (e.realias ρ) = sqlExpr e := by
  have hb : bare (e.realias ρ) = bare e := by
    induction e using SqlExpr.induction with
    | compound parts =>
      refine congrArg SqlExpr.identifier ?_
      unfold realiasParts
      split <;> rfl
    | node form parts ih =>
      rw [SqlExpr.realias, bare, bare, realiasAll_eq, bareAll_eq, bareAll_eq, map_map]
      exact congrArg (SqlExpr.node form) (map_congr_left ih)
    | _ => rfl
  rw [← sqlExpr_bare, hb, sqlExpr_bare]

theorem forall₂_alike {g g' : SqlExpr → Result SqlExpr} {parts ps ps' : List SqlExpr} {args args' : List Expr}
    (hps : parts.mapM g = .ok ps) (hps' : (realiasAll ρ parts).mapM g' = .ok ps') (ha : sqlExprAll ps = .ok args)
    (ha' : sqlExprAll ps' = .ok args') (h : ∀ p ∈ parts, ∀ {x x' a a'}, g p = .ok x → g' (p.realias ρ) = .ok x' →
      sqlExpr x = .ok a → sqlExpr x' = .ok a' → Alike s s' a a') : Forall₂ (Alike s s') args args' := by
  induction parts generalizing ps ps' args args' with
  | nil =>
    cases hps; cases hps'; cases ha; cases ha'
    exact .nil
  | cons e es ih =>
    rw [mapM_cons] at hps
    rw [realiasAll, mapM_cons] at hps'
    obtain ⟨p, hp, hps⟩ := bind_eq_ok.mp hps
    obtain ⟨qs, hqs, hps⟩ := bind_eq_ok.mp hps
    obtain ⟨p', hp', hps'⟩ := bind_eq_ok.mp hps'
    obtain ⟨qs', hq', hps'⟩ := bind_eq_ok.mp hps'
    cases hps; cases hps'
    obtain ⟨b, hb, ha⟩ := bind_eq_ok.mp ha
    obtain ⟨bs, hbs, ha⟩ := bind_eq_ok.mp ha
    obtain ⟨b', hb', ha'⟩ := bind_eq_ok.mp ha'
    obtain ⟨bs', hbs', ha'⟩ := bind_eq_ok.mp ha'
    cases ha; cases ha'
    exact .cons (h e (by simp) hp hp' hb hb') (ih hqs hq' hbs hbs' fun p hp => h p (by simp [hp]))

section

variable {n n' : Names} {enter ok : Form → Bool}
  (hq : ∀ {parts c c'}, n.qualified parts = .ok c → n'.qualified (realiasParts ρ parts) = .ok c' →
    Alike s s' (.column c) (.column c'))
  (hu : ∀ {name c c'}, n.unqualified name = .ok c → n'.unqualified name = .ok c' → Alike s s' (.column c) (.column c'))
  (hskip : (∀ form, enter form = true) ∨ s = s')

include hq hu hskip

/-- **An expression is alike under other aliases** if its references are. -/
theorem alike_rename {e x x' : SqlExpr} {a a' : Expr} (h : rename enter ok n e = .ok x)
    (h' : rename enter ok n' (e.realias ρ) = .ok x') (ha : sqlExpr x = .ok a) (ha' : sqlExpr x' = .ok a') :
    Alike s s' a a' := by
  induction e using SqlExpr.induction generalizing x x' a a' with
  | identifier name =>
    obtain ⟨c, hc, h⟩ := bind_eq_ok.mp h
    obtain ⟨c', hc', h'⟩ := bind_eq_ok.mp h'
    cases h; cases h'; cases ha; cases ha'
    exact hu hc hc'
  | compound parts =>
    obtain ⟨c, hc, h⟩ := bind_eq_ok.mp h
    obtain ⟨c', hc', h'⟩ := bind_eq_ok.mp h'
    cases h; cases h'; cases ha; cases ha'
    exact hq hc hc'
  | value v =>
    cases h; cases h'
    obtain ⟨w, hw, ha⟩ := bind_eq_ok.mp ha
    obtain ⟨w', hw', ha'⟩ := bind_eq_ok.mp ha'
    cases ha; cases ha'; cases hw.symm.trans hw'
    exact ⟨id, id⟩
  | node form parts ih =>
    rw [rename] at h
    rw [SqlExpr.realias, rename] at h'
    cases he : enter form with
    | true =>
      rw [he, if_pos rfl, renameAll_eq] at h h'
      obtain ⟨ps, hps, h⟩ := bind_eq_ok.mp (after_check h)
      obtain ⟨ps', hp', h'⟩ := bind_eq_ok.mp (after_check h')
      cases h; cases h'
      obtain ⟨args, har, hf⟩ := bind_eq_ok.mp ha
      obtain ⟨args', har', hf'⟩ := bind_eq_ok.mp ha'
      exact .assemble (forall₂_alike hps hp' har har' fun p hp => ih p hp) hf hf'
    | false =>
      obtain rfl := hskip.resolve_left fun hal => by simp [hal] at he
      rw [he, if_neg (by simp)] at h h'
      cases h; cases h'
      have hs := (sqlExpr_realias ρ (.node form parts)).symm.trans ha'
      cases ha.symm.trans hs
      exact .refl s a

end

theorem Names.qualified_of {column : String → String → Option String} {found : String → List String}
    {other : String → Result String} {parts : List String} {c : String}
    (h : (Names.of column found other).qualified parts = .ok c) :
    ∃ owner name, parts = [owner, name] ∧ column owner name = some c := by
  simp only [Names.of] at h
  split at h
  case h_1 owner name =>
    refine ⟨owner, name, rfl, ?_⟩
    cases hc : column owner name with
    | none => simp [hc] at h
    | some c' => simpa [hc] using h
  case h_2 => cases h

theorem alike_column (hn : (s.fields.map Field.name).Nodup) (hn' : (s'.fields.map Field.name).Nodup)
    {i : ℕ} {f f' : Field}
    (hf : s.fields[i]? = some f) (hf' : s'.fields[i]? = some f') (ht : f.dataType = f'.dataType) :
    Alike s s' (.column f.name) (.column f'.name) := by
  have hat : ∀ {s : Schema} {f : Field}, (s.fields.map Field.name).Nodup → s.fields[i]? = some f →
      s.indexOfName f.name = some i ∧ s.fieldByName f.name = some f := by
    intro s f hn hf
    obtain ⟨hi, rfl⟩ := List.getElem?_eq_some_iff.mp hf
    have hfi : ∀ j (hj : j < i), decide (s.fields[j].name = s.fields[i].name) = false := by
      intro j hj
      have hne := List.pairwise_iff_getElem.mp hn j i (by simp; omega) (by simpa) hj
      simpa using hne
    exact ⟨List.findIdx?_eq_some_iff_getElem.mpr ⟨hi, by simp, fun j hj => by simpa using hfi j hj⟩,
      List.find?_eq_some_iff_getElem.mpr ⟨by simp, i, hi, rfl, fun j hj => by simpa using hfi j hj⟩⟩
  obtain ⟨hi, hfie⟩ := hat hn hf
  obtain ⟨hi', hfi'⟩ := hat hn' hf'
  constructor <;> intro t h
  · simpa [inferType, hfie, hfi', ht] using h
  · simpa [Expression.bind, hi, hi'] using h

namespace Relation

variable {r : Relation} {output output' : Schema}

theorem alike_arrayExpr {la : String} {left : Schema} {array : SqlExpr} {expr expr' : Expr}
    (h : arrayExpr la left array = .ok expr) (h' : arrayExpr (ρ la) left (array.realias ρ) = .ok expr') :
    Alike left left expr expr' := by
  obtain ⟨x, hx, h⟩ := bind_eq_ok.mp h
  obtain ⟨x', hx', h'⟩ := bind_eq_ok.mp h'
  refine alike_rename (fun {parts c c'} hc hc' => ?_) (fun {name c c'} hc hc' => ?_) (.inr rfl) hx hx' h h'
  · -- both aliases have the columns of the left side
    obtain ⟨owner, name, rfl, hco⟩ := Names.qualified_of hc
    obtain ⟨_, _, heq, hco'⟩ := Names.qualified_of hc'
    obtain ⟨rfl, rfl⟩ : ρ owner = _ ∧ name = _ := by simpa [realiasParts] using heq
    by_cases ho : owner = la
    · simp only [ho, lookup_cons, beq_self_eq_true] at hco hco'
      cases hco.symm.trans hco'
      exact .refl left _
    · simp [lookup_cons, beq_eq_false_iff_ne.mpr ho] at hco
  · cases hc.symm.trans hc'
    exact .refl left _

section

variable (h : r.output = .ok output) (h' : (r.realias ρ).output = .ok output')

include h h'

/-- The rows are the same but for the names of the columns. -/
theorem types_realias (i : ℕ) : output.fields[i]?.map Field.dataType = output'.fields[i]?.map Field.dataType := by
  replace h := (output_ok h).2
  replace h' := (output_ok h').2
  simp only [← getElem?_map]
  cases r with
  | join la ra left right spec => simp [h.2, h'.2, joinFields, Function.comp_def]
  | unnest la left ea columns ordinality array =>
    obtain ⟨-, c, cs, expr, t, u, rfl, he, ht, hu, hf⟩ := h
    obtain ⟨-, c', cs', expr', t', u', -, he', ht', hu', hf'⟩ := h'
    cases ((alike_arrayExpr he he').typed ht).symm.trans ht'
    cases hu.symm.trans hu'
    simp [hf, hf', Function.comp_def]

/-- A column of a relation stays where it is. -/
theorem position_realias {owner : String} (ho : owner ∈ r.aliases) (name : String) :
    (r.realias ρ).position (ρ owner) name = r.position owner name := by
  replace h := (output_ok h).2
  replace h' := (output_ok h').2
  cases r <;> simp only [aliases, mem_cons, not_mem_nil, or_false] at ho <;> obtain rfl | rfl := ho <;>
    simp [realias, position, h.1, h'.1]

theorem alike_carrier {owner : String} (ho : owner ∈ r.aliases) (name : String) :
    (r.carrier output owner name = none ∧ (r.realias ρ).carrier output' (ρ owner) name = none) ∨
      ∃ c c', r.carrier output owner name = some c ∧ (r.realias ρ).carrier output' (ρ owner) name = some c' ∧
        Alike output output' (.column c) (.column c') := by
  simp only [carrier, position_realias h h' ho]
  cases r.position owner name with
  | none => exact .inl ⟨rfl, rfl⟩
  | some i =>
    have ht := types_realias h h' i
    cases hf : output.fields[i]? with
    | none =>
      rw [hf, Option.map_none] at ht
      simp [hf, Option.map_eq_none_iff.mp ht.symm]
    | some f =>
      rw [hf, Option.map_some] at ht
      obtain ⟨f', hf', hty⟩ := Option.map_eq_some_iff.mp ht.symm
      exact .inr ⟨f.name, f'.name, by simp [hf], by simp [hf'],
        alike_column (output_ok h).1 (output_ok h').1 hf hf' hty.symm⟩

theorem alike_own {name : String} (hn : name ∈ r.own) : Alike output output' (.column name) (.column name) := by
  obtain ⟨hd, h⟩ := output_ok h
  obtain ⟨hd', h'⟩ := output_ok h'
  cases r with
  | unnest => cases hn
  | join la ra left right spec =>
    obtain ⟨added, ha, hat⟩ : ∃ added : List Field, added.map Field.name = (join la ra left right spec).own ∧
        ∀ pre pre' k, (joinFields { spec with leftPrefix := pre, rightPrefix := pre' } left right)[
          left.fields.length + right.fields.length + k]? = added[k]? := by
      refine ⟨[⟨"join_time", .int64, false⟩, ⟨"join_left_ordinal", .int64, false⟩,
        ⟨"join_right_ordinal", .int64, spec.mode = .left⟩], rfl, fun pre pre' k => ?_⟩
      rw [joinFields, getElem?_append_right (by simp)]
      simp
    rw [← ha] at hn
    obtain ⟨f, hf, rfl⟩ := mem_map.mp hn
    obtain ⟨k, hk⟩ := mem_iff_getElem?.mp hf
    exact alike_column hd hd' (by rw [h.2, hat, hk]) (by rw [h'.2, hat, hk]) rfl

/-- **References are alike under other aliases.** -/
theorem alike_names : (∀ {parts c c'}, (r.names output).qualified parts = .ok c →
      ((r.realias ρ).names output').qualified (realiasParts ρ parts) = .ok c' →
        Alike output output' (.column c) (.column c')) ∧
    ∀ {name c c'}, (r.names output).unqualified name = .ok c → ((r.realias ρ).names output').unqualified name = .ok c' →
      Alike output output' (.column c) (.column c') := by
  constructor
  · intro parts c c' hc hc'
    obtain ⟨owner, name, rfl, hco⟩ := Names.qualified_of hc
    obtain ⟨_, _, heq, hco'⟩ := Names.qualified_of hc'
    obtain ⟨rfl, rfl⟩ : ρ owner = _ ∧ name = _ := by simpa [realiasParts] using heq
    have ho : owner ∈ r.aliases := by
      by_contra ho
      cases r <;> simp only [aliases, mem_cons, not_mem_nil, or_false, not_or] at ho <;>
        simp [carrier, position, ho] at hco
    obtain ⟨hno, -⟩ | ⟨d, d', hd, hd', hal⟩ := alike_carrier h h' ho name
    · cases hno.symm.trans hco
    · cases hd.symm.trans hco
      cases hd'.symm.trans hco'
      exact hal
  · intro name c c' hc hc'
    have how : (r.realias ρ).own = r.own := by cases r <;> rfl
    obtain ⟨x, y, hxy, hxy'⟩ : ∃ x y, r.aliases = [x, y] ∧ (r.realias ρ).aliases = [ρ x, ρ y] := by
      cases r <;> exact ⟨_, _, rfl, rfl⟩
    have ha : x ∈ r.aliases ∧ y ∈ r.aliases := by simp [hxy]
    have hx := alike_carrier h h' ha.1 name
    have hy := alike_carrier h h' ha.2 name
    simp only [names, Names.of, hxy, hxy', how] at hc hc'
    obtain ⟨hx, hx'⟩ | ⟨d, d', hx, hx', hal⟩ := hx <;> obtain ⟨hy, hy'⟩ | ⟨f, f', hy, hy', ha'⟩ := hy <;>
      simp only [filterMap_cons, filterMap_nil, hx, hx', hy, hy'] at hc hc'
    · -- a column of the operator's own
      split_ifs at hc hc' with hn
      cases hc; cases hc'
      exact alike_own h h' hn
    · cases hc; cases hc'
      exact ha'
    · cases hc; cases hc'
      exact hal
    · cases hc

end

/-- What an UNNEST takes apart, by the columns of its left side; a join has nothing of the kind. -/
def unnested : Relation → Result (Option BoundExpr)
  | .join .. => .ok none
  | .unnest la left _ _ _ array => do return some (← bind left (← arrayExpr la left array))

theorem unnested_realias (h' : (r.realias ρ).output = .ok output') {u : Option BoundExpr}
    (hu : r.unnested = .ok u) : (r.realias ρ).unnested = .ok u := by
  cases r with
  | join => exact hu
  | unnest la left ea columns ordinality array =>
    obtain ⟨-, -, _, _, expr', _, _, -, he', -⟩ := output_ok h'
    obtain ⟨expr, he, hu⟩ := bind_eq_ok.mp hu
    exact bind_eq_ok.mpr ⟨expr', he', bind_imp (alike_arrayExpr he he').bound (fun _ => id) hu⟩

end Relation

/-- **Names are bound as meant** in an expression over an accepted relation exactly if every unqualified name is known
and every reference in a form that `rewrite` does not enter is meant to be the output column of its last name. If so,
the same columns are read when the aliases are renamed. -/
theorem names_bound_iff {r : Relation} {output : Schema} {e e' : SqlExpr} {b : Expr} (hr : r.output = .ok output)
    (he : rewrite r.scopes.names e = .ok e') (hb : sqlExpr e' = .ok b) :
    ((resolve (r.names output) e = .ok (bare e') ↔ Clear (r.names output) e) ∧ sqlExpr (bare e') = .ok b) ∧
    ∀ {ρ : String → String} {output' : Schema} {x : SqlExpr} {b' : Expr}, (r.realias ρ).output = .ok output' →
      rewrite (r.realias ρ).scopes.names (e.realias ρ) = .ok x → sqlExpr x = .ok b' →
      Clear (r.names output) e → Clear ((r.realias ρ).names output') (e.realias ρ) →
      (∀ u, r.unnested = .ok u → (r.realias ρ).unnested = .ok u) ∧ ∀ c, bind output b = .ok c →
        bind output' b' = .ok c := by
  have hi := clear_iff (Relation.names_within hr) he
  refine ⟨⟨hi, (sqlExpr_bare e').trans hb⟩, fun {ρ output' x b'} hr' hx hb' hc hc' => ?_⟩
  have hm' := (clear_iff (Relation.names_within hr') hx).mpr hc'
  obtain ⟨hq, hu⟩ := Relation.alike_names hr hr'
  have ha := alike_rename hq hu (.inl fun _ => rfl) (hi.mpr hc) hm'
    ((sqlExpr_bare e').trans hb) ((sqlExpr_bare x).trans hb')
  exact ⟨fun u => Relation.unnested_realias hr', fun c => ha.bound⟩

/-- A join of `a (k, ts, x)` and `b (k, ts, a_x)`. -/
def readings : Relation :=
  .join "a" "b" ⟨[⟨"k", .int64, false⟩, ⟨"ts", .int64, false⟩, ⟨"x", .int64, false⟩]⟩
    ⟨[⟨"k", .int64, false⟩, ⟨"ts", .int64, false⟩, ⟨"a_x", .int64, false⟩]⟩
    { leftInput := 1, rightInput := 2, leftKeys := ["k"], rightKeys := ["k"], leftTime := "ts", rightTime := "ts"
      mode := .inner, beforeMicros := some 3, afterMicros := some 5, windowSizeMicros := none, leftPrefix := "a_"
      rightPrefix := "b_", maxRowsPerSide := 1024, maxMatchesPerRow := 1024, maxOutputBytesPerRow := 1048576 }

/-- The forms of `b.a_x BETWEEN 1 AND 2` and of `b.a_x >= 1`. -/
def inRange (form : Form) (bounds : List Int64) : SqlExpr :=
  .node form (.compound ["b", "a_x"] :: bounds.map fun n => .value (.ok (.int64 n)))

/-- The two aliases of `readings` change places. -/
def swapped (owner : String) : String := if owner = "a" then "b" else "a"

/-- `b.a_x >= 1` is read as `b_a_x >= 1`, and, when the aliases have changed places, as `a_a_x >= 1`: the same column. -/
theorem names_bound_iff_readings : ∃ output output', readings.output = .ok output ∧
    (readings.realias swapped).output = .ok output' ∧
    (resolve (readings.names output) (inRange (.binary (.ok .gte)) [1]) =
        .ok (bare (.node (.binary (.ok .gte)) [.identifier "b_a_x", .value (.ok (.int64 1))])) ↔
      Clear (readings.names output) (inRange (.binary (.ok .gte)) [1])) ∧
    bind output' (.binary .gte (.column "a_a_x") (.literal (.int64 1))) =
      .ok (.binary .gte (.column 5) (.literal (.int64 1))) := by
  have hc : ∀ names parts, Clear names (.node (.binary (.ok .gte)) [.compound parts, .value (.ok (.int64 1))]) := by
    intro names parts
    refine .entered rfl (List.forall_mem_cons.mpr ⟨.compound parts, List.forall_mem_cons.mpr ⟨.value _, ?_⟩⟩)
    exact fun p hp => absurd hp not_mem_nil
  obtain ⟨⟨hi, -⟩, hr⟩ := names_bound_iff (r := readings) rfl
    (rfl : rewrite readings.scopes.names (inRange (.binary (.ok .gte)) [1]) = .ok _) rfl
  have hx : rewrite (readings.realias swapped).scopes.names ((inRange (.binary (.ok .gte)) [1]).realias swapped) =
      .ok (.node (.binary (.ok .gte)) [.identifier "a_a_x", .value (.ok (.int64 1))]) := rfl
  exact ⟨_, _, rfl, rfl, hi, (hr rfl hx rfl (hc _ _) (hc _ _)).2 _ rfl⟩

/-- **Captured names.** `b.a_x BETWEEN 1 AND 2` is accepted and bound to `a_x`, the output column of `a.x`; the column of
`b.a_x` is `b_a_x`. So is `b_k`, which is no column of either relation. -/
theorem captured : ∃ output b, readings.output = .ok output ∧
    (rewrite readings.scopes.names (inRange (.between false) [1, 2]) >>= sqlExpr) = .ok b ∧
    inferType output b = .ok .bool ∧ b = .binary .and (.binary .gte (.column "a_x") (.literal (.int64 1)))
      (.binary .lte (.column "a_x") (.literal (.int64 2))) ∧
    readings.carrier output "a" "x" = some "a_x" ∧ readings.carrier output "b" "a_x" = some "b_a_x" ∧
    (rewrite readings.scopes.names (.identifier "b_k") >>= sqlExpr) = .ok (.column "b_k") ∧
    inferType output (.column "b_k") = .ok .int64 ∧
    (readings.names output).unqualified "b_k" = .error (invalid "unknown column") :=
  ⟨_, _, rfl, rfl, rfl, rfl, rfl, rfl, rfl, rfl, rfl⟩

end Sparrow.Sql
