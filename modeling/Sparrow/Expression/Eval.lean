import Sparrow.Expression.Collection

/-!
# Expressions

`sparrow-expr/src/lib.rs`, `bind.rs` and `infer.rs`: the expression language that the
graph and SQL binders share, its evaluation, and the two inferences the binders publish
an output schema from.

## The model

Expressions have no plugin calls here. A bound call holds the function its name stands
for: binding refuses a name that is not in the table. The evaluation is eager, from left to
right, and stops at the first error.
-/

namespace Sparrow.Expression

open Library Model

/-- Expressions. -/
inductive Expr where
  | column (name : String)
  | literal (value : Scalar)
  | cast (expr : Expr) (target : DataType)
  | tryCast (expr : Expr) (target : DataType)
  | binary (op : BinaryOp) (left right : Expr)
  | isNull (expr : Expr)
  | isNotNull (expr : Expr)
  | not (expr : Expr)
  | call (name : String) (args : List Expr)
  | dynamicGet (expr : Expr) (key : String)

/-- Expressions with column names replaced by positions. -/
inductive BoundExpr where
  | column (index : ℕ)
  | literal (value : Scalar)
  | cast (expr : BoundExpr) (target : DataType)
  | tryCast (expr : BoundExpr) (target : DataType)
  | binary (op : BinaryOp) (left right : BoundExpr)
  | isNull (expr : BoundExpr)
  | isNotNull (expr : BoundExpr)
  | not (expr : BoundExpr)
  | call (function : Function) (args : List BoundExpr)
  | dynamicGet (expr : BoundExpr) (key : String)

/-- **Induction on expressions**, with the arguments of a call. -/
theorem Expr.induction {P : Expr → Prop} (column : ∀ name, P (.column name)) (literal : ∀ value, P (.literal value))
    (cast : ∀ e target, P e → P (.cast e target)) (tryCast : ∀ e target, P e → P (.tryCast e target))
    (binary : ∀ op l r, P l → P r → P (.binary op l r)) (isNull : ∀ e, P e → P (.isNull e))
    (isNotNull : ∀ e, P e → P (.isNotNull e)) (not : ∀ e, P e → P (.not e))
    (call : ∀ name args, (∀ a ∈ args, P a) → P (.call name args))
    (dynamicGet : ∀ e key, P e → P (.dynamicGet e key)) : ∀ e, P e :=
  @Expr.rec P (fun args => ∀ a ∈ args, P a) column literal cast tryCast binary isNull
    isNotNull not call dynamicGet (fun _ h => absurd h List.not_mem_nil)
    fun _ _ hh ht => List.forall_mem_cons.mpr ⟨hh, ht⟩

/-! ### Inference -/

/-- `is_numeric`. -/
def isNumeric : DataType → Bool
  | .int64 | .uInt64 | .float64 | .timestampMicrosUTC => true
  | _ => false

/-- `is_intish`. -/
def isIntish : DataType → Bool
  | .int64 | .uInt64 | .timestampMicrosUTC => true
  | _ => false

/-- An operator that gives a truth value. -/
def BinaryOp.isPredicate : BinaryOp → Bool
  | .eq | .notEq | .lt | .lte | .gt | .gte | .and | .or => true
  | _ => false

/-- The type of a sum, difference, product or quotient. -/
def arithmeticType (lt rt : DataType) : Result DataType :=
  let l := lt.display
  let r := rt.display
  let mismatch := SparrowError.new .typeMismatch s!"arithmetic expects numeric, got {l} and {r}"
  if lt = .dynamic ∨ rt = .dynamic then
    .error (.new .typeMismatch "dynamic arithmetic requires an explicit CAST/TRY_CAST")
  else if lt = .float64 ∨ rt = .float64 then
    if isNumeric lt && isNumeric rt then .ok .float64 else .error mismatch
  else if lt = .uInt64 ∧ rt = .uInt64 then .ok .uInt64
  else if isIntish lt && isIntish rt then .ok .int64
  else .error mismatch

/-- The check of the arguments' number that `eval_call_sig` makes itself. -/
def Function.checkSigArity (f : Function) (name : String) (argc : ℕ) : Result Unit :=
  match f with
  | .abs | .lower | .upper | .length | .charLength =>
    refuseIf (argc ≠ 1) (.new .invalidArgument s!"{name} requires 1 argument, got {argc}")
  | .coalesce => refuseIf (argc = 0) (.new .invalidArgument "coalesce requires at least 1 argument")
  | _ => .ok ()

/-- The type of a call of a function that `lib.rs` evaluates itself. -/
def Function.plainType (f : Function) (name : String) (types : List DataType) : Result DataType :=
  let first := types.getD 0 .null
  match f with
  | .lower | .upper => .ok .utf8
  | .length | .charLength => .ok .int64
  | .nullif => do
    refuseIf (types.length ≠ 2) (.new .invalidArgument "nullif requires 2 arguments")
    return first
  | .greatest | .least => do
    refuseIf (types.length = 0) (.new .invalidArgument s!"{name} requires at least 1 argument")
    return first
  | _ => .ok first

/-- `unknown column`. -/
def unknownColumn (name : String) : SparrowError := .new .invalidArgument s!"unknown column '{name}'"

/-- `unknown function`. -/
def unknownFunction (name : String) : SparrowError := .new .featureUnavailable s!"unknown function '{name}'"

mutual

/-- `infer_type`. -/
def inferType (schema : Schema) : Expr → Result DataType
  | .column name =>
    match schema.fieldByName name with
    | some f => .ok f.dataType
    | none => .error (unknownColumn name)
  | .literal value => .ok value.dataType
  | .cast expr target => do
    let _ ← inferType schema expr
    return target
  | .tryCast expr target => do
    let _ ← inferType schema expr
    return target
  | .isNull _ | .isNotNull _ | .not _ => .ok .bool
  | .binary op left right => do
    let lt ← inferType schema left
    let rt ← inferType schema right
    if op.isPredicate then return .bool else arithmeticType lt rt
  | .call name args =>
    match Function.ofName name with
    | none => do
      let _ ← inferTypes schema args
      .error (unknownFunction (toAsciiLowercase name))
    | some f =>
      if f.isBuiltin then do
        f.checkCallArity args.length
        let types ← inferTypes schema args
        f.signature types
      else do
        f.checkSigArity name args.length
        let types ← inferTypes schema args
        f.plainType name types
  | .dynamicGet expr _ => do
    let t ← inferType schema expr
    let got := t.display
    refuseIf (t ≠ .dynamic ∧ t ≠ .null) (.new .typeMismatch s!"dynamic extract requires Dynamic, got {got}")
    return .dynamic

/-- The types of the arguments of a call. -/
def inferTypes (schema : Schema) : List Expr → Result (List DataType)
  | [] => .ok []
  | e :: rest => do
    let t ← inferType schema e
    let ts ← inferTypes schema rest
    return t :: ts

end

mutual

/-- Whether evaluating an expression can give NULL when the row is valid: `infer_nullable`. -/
def inferNullable (schema : Schema) : Expr → Result Bool
  | .column name =>
    match schema.fieldByName name with
    | some f => .ok f.nullable
    | none => .error (unknownColumn name)
  | .literal value => .ok value.isNull
  | .cast expr _ => inferNullable schema expr
  | .tryCast _ _ => .ok true
  | .isNull _ | .isNotNull _ => .ok false
  | .not expr => inferNullable schema expr
  | .binary _ left right => do
    if ← inferNullable schema left then return true else inferNullable schema right
  | .call name args =>
    match Function.ofName name with
    | none => firstNullable schema args
    | some f =>
      if f.isCollection then .ok true
      else match f with
        | .jsonGet => .ok true
        | .jsonStringify => .ok false
        | .toInt64 | .toFloat64 | .toString =>
          if anyDynamic schema args then .ok true else anyNullable schema args
        | .nullif => .ok true
        | .coalesce =>
          if args = [] then .error (.new .invalidArgument "coalesce requires at least 1 argument")
          else allNullable schema args
        | .greatest | .least => anyNullable schema args
        | f => if f.isBuiltin then anyNullable schema args else firstNullable schema args
  | .dynamicGet _ _ => .ok true

def anyDynamic (schema : Schema) : List Expr → Bool
  | [] => false
  | e :: rest => (match inferType schema e with | .ok .dynamic => true | _ => false) || anyDynamic schema rest

/-- Some argument can be NULL; all of them are looked at. -/
def anyNullable (schema : Schema) : List Expr → Result Bool
  | [] => .ok false
  | e :: rest => do
    let n ← inferNullable schema e
    let ns ← anyNullable schema rest
    return n || ns

/-- All arguments can be NULL, up to the first that cannot. -/
def allNullable (schema : Schema) : List Expr → Result Bool
  | [] => .ok true
  | e :: rest => do
    if ← inferNullable schema e then allNullable schema rest else return false

def firstNullable (schema : Schema) : List Expr → Result Bool
  | [] => .ok true
  | e :: _ => inferNullable schema e

end

/-! ### Binding -/

mutual

/-- `bind`. -/
def bind (schema : Schema) : Expr → Result BoundExpr
  | .column name =>
    match schema.indexOfName name with
    | some index => .ok (.column index)
    | none => .error (unknownColumn name)
  | .literal value => .ok (.literal value)
  | .cast expr target => do return .cast (← bind schema expr) target
  | .tryCast expr target => do return .tryCast (← bind schema expr) target
  | .binary op left right => do
    let left ← bind schema left
    let right ← bind schema right
    return .binary op left right
  | .isNull expr => do return .isNull (← bind schema expr)
  | .isNotNull expr => do return .isNotNull (← bind schema expr)
  | .not expr => do return .not (← bind schema expr)
  | .call name args =>
    match Function.ofName name with
    | none =>
      let lower := toAsciiLowercase name
      .error (.new .featureUnavailable s!"unknown function {lower}")
    | some f => do
      f.checkCallArity args.length
      if f.isBuiltin then
        let types ← inferTypes schema args
        let _ ← f.signature types
        let args ← bindAll schema args
        return .call f args
      else
        let args ← bindAll schema args
        return .call f args
  | .dynamicGet expr key => do return .dynamicGet (← bind schema expr) key

def bindAll (schema : Schema) : List Expr → Result (List BoundExpr)
  | [] => .ok []
  | e :: rest => do
    let b ← bind schema e
    let bs ← bindAll schema rest
    return b :: bs

end

/-! ### Evaluation -/

/-- `abs`. -/
def evalAbs : Option Scalar → Result Scalar
  | some (.int64 v) =>
    match checkedI64 |v.toInt| with
    | some v => .ok (.int64 v)
    | none => .error (.new .integerOverflow "abs(Int64::MIN) overflows")
  | some (.float64 v) => .ok (.float64 (Float.ofBits v).abs.toBits)
  | some .null => .ok .null
  | none => .error (.new .invalidArgument "abs requires 1 argument")
  | _ => .error (.new .typeMismatch "abs expects numeric")

/-- `lower`, `upper`, `length` and `char_length`. -/
def evalText (name : String) (op : String → Scalar) : Option Scalar → Result Scalar
  | some (.utf8 s) => .ok (op s)
  | some .null => .ok .null
  | _ => .error (.new .typeMismatch s!"{name} expects utf8")

/-- `coalesce`. -/
def evalCoalesce (vals : List Scalar) : Result Scalar := do
  refuseIf (vals = []) (.new .invalidArgument "coalesce requires at least 1 argument")
  return (vals.find? fun v => !v.isNull).getD .null

/-- `nullif`. -/
def evalNullif (vals : List Scalar) : Result Scalar :=
  match vals with
  | [a, b] => .ok (if scalarsEq a b then .null else a)
  | _ => .error (.new .invalidArgument "nullif requires 2 arguments")

/-- One more candidate of `greatest` or `least`; `replaces` is how the last one must compare to give way. -/
def better (replaces : Ordering) (acc : Option Scalar) (v : Scalar) : Result (Option Scalar) :=
  if v.isNull || v.isNaN then .ok acc
  else match acc with
    | none => .ok (some v)
    | some prev => do
      match ← cmpScalars prev v with
      | none => return some prev
      | some ord => return some (if ord = replaces then v else prev)

/-- `greatest` and `least`: NULL and NaN are skipped. -/
def evalExtreme (name : String) (replaces : Ordering) (vals : List Scalar) : Result Scalar := do
  refuseIf (vals = []) (.new .invalidArgument s!"{name} requires at least 1 argument")
  return (← vals.foldlM (better replaces) none).getD .null

variable (texts : Texts)

/-- `eval_call_values`. -/
def evalCallValues (f : Function) (vals : List Scalar) : Result Scalar :=
  if f.isBuiltin then if f.isCollection then evalCollection texts f vals else evalBuiltin texts f vals
  else match f with
    | .abs => evalAbs vals.head?
    | .lower => evalText "lower" (fun s => .utf8 (toAsciiLowercase s)) vals.head?
    | .upper => evalText "upper" (fun s => .utf8 (toAsciiUppercase s)) vals.head?
    | .length | .charLength => evalText "length" (fun s => .int64 (Int64.ofInt s.length)) vals.head?
    | .coalesce => evalCoalesce vals
    | .nullif => evalNullif vals
    | .greatest => evalExtreme "greatest" .lt vals
    | _ => evalExtreme "least" .gt vals

/-- A key of a dynamic value, as a typed value where there is one. -/
def dynamicGet (value : Scalar) (key : String) : Result Scalar :=
  match value with
  | .dynamic (.object entries) =>
    match (entries.find? fun e => e.1 = key).map Prod.snd with
    | some .null | none => .ok .null
    | some (.bool v) => .ok (.bool v)
    | some (.int64 v) => .ok (.int64 v)
    | some (.uInt64 v) => .ok (.uInt64 v)
    | some (.float64 v) => .ok (.float64 v)
    | some (.utf8 v) => .ok (.utf8 v)
    | some (.bytes v) => .ok (.bytes v)
    | some other => .ok (.dynamic other)
  | .dynamic _ => .ok .null
  | .null => .ok .null
  | other =>
    let got := other.dataType.display
    .error (.new .typeMismatch s!"dynamic extract requires Dynamic, got {got}")

mutual

/-- `eval_bound`. -/
def evalBound (row : List Scalar) : BoundExpr → Result Scalar
  | .column index =>
    match row[index]? with
    | some v => .ok v
    | none =>
      let width := row.length
      .error (.new .internal s!"bound column {index} outside row of width {width}")
  | .literal value => .ok value
  | .cast expr target => do cast texts (← evalBound row expr) target false
  | .tryCast expr target => do cast texts (← evalBound row expr) target true
  | .binary op left right => do
    let l ← evalBound row left
    let r ← evalBound row right
    evalBinary op l r
  | .isNull expr => do return .bool (← evalBound row expr).isNull
  | .isNotNull expr => do return .bool !(← evalBound row expr).isNull
  | .not expr => do
    match ← evalBound row expr with
    | .bool v => return .bool !v
    | .null => return .null
    | other =>
      let got := other.dataType.display
      .error (.new .typeMismatch s!"NOT expects bool, got {got}")
  | .call f args => do evalCallValues texts f (← evalAll row args)
  | .dynamicGet expr key => do dynamicGet (← evalBound row expr) key

/-- The arguments of a call, from left to right. -/
def evalAll (row : List Scalar) : List BoundExpr → Result (List Scalar)
  | [] => .ok []
  | e :: rest => do
    let v ← evalBound row e
    let vs ← evalAll row rest
    return v :: vs

end

/-- `eval`. -/
def eval (expr : Expr) (schema : Schema) (row : List Scalar) : Result Scalar := do
  evalBound texts row (← bind schema expr)

end Sparrow.Expression
