import Sparrow.Model.Schema
import Sparrow.Model.Window

/-!
# Window specifications

`sparrow-plan/src/stateful.rs`: the aggregate calls of a window, its checks, and
the schema of its results.

## The model

The expression language is seen through the three things a window asks of it:
the type an expression is inferred to have under a schema, its binding to the
columns of that schema, and, once bound, its evaluation on a row and the bound on
what that allocates. Any functions will do, so a statement here holds for every
expression of the language, plugin calls included.
-/

namespace Sparrow.Plan

open Model WindowKind

/-- A bound on the size of a value and on what computing it allocates. -/
structure Estimate where
  value : ℕ
  allocated : ℕ

/-- An expression whose columns have been resolved. -/
structure BoundExpr where
  /-- `eval_bound`. -/
  eval : List Scalar → Result Scalar
  /-- `AllocationBound::for_expr(..).estimate`, from the sizes of the columns. -/
  estimate : List ℕ → Estimate

/-- An expression over the columns of a schema. -/
structure Expr where
  /-- `infer_type`. -/
  inferType : Schema → Result DataType
  /-- `bind`. -/
  bind : Schema → Result BoundExpr

def Expr.column (name : String) : Expr where
  inferType schema := match schema.fieldByName name with
    | some f => .ok f.dataType
    | none => .error (.new .invalidArgument s!"unknown column '{name}'")
  bind schema := match schema.indexOfName name with
    | some index => .ok
      { eval := fun row => match row[index]? with
          | some v => .ok v
          | none =>
            let width := row.length
            .error (.new .internal s!"bound column {index} outside row of width {width}")
        estimate := fun columns => { value := columns.getD index scalarSize, allocated := 0 } }
    | none => .error (.new .invalidArgument s!"unknown column '{name}'")

/-- One aggregate of a window. -/
structure AggCall where
  func : AggFn
  /-- Its argument; none for `COUNT(*)`. -/
  input : Option Expr
  aliasName : String
  /-- `COUNT(*)`. -/
  countStar : Bool

namespace AggCall

def inputType (a : AggCall) (schema : Schema) : Result DataType :=
  match a.countStar, a.input with
  | false, some e => e.inferType schema
  | _, _ => .ok .int64

def bindInput (a : AggCall) (schema : Schema) : Result (Option BoundExpr) :=
  match a.input with
  | none => .ok none
  | some e => (e.bind schema).map some

def numericOrNull : DataType → Bool
  | .int64 | .uInt64 | .float64 | .null => true
  | _ => false

/-- `agg_result_type`. -/
def resultType (a : AggCall) (schema : Schema) : Result DataType :=
  match a.func with
  | .count => .ok .int64
  | .first | .last => a.inputType schema
  | .varPop | .varSamp | .stddevPop | .stddevSamp => do
    if numericOrNull (← a.inputType schema) then return .float64
    else .error (.new .typeMismatch "variance/stddev require numeric input")
  | .avg => .ok .float64
  | .sum => do
    let ty ← a.inputType schema
    if numericOrNull ty then return ty
    else
      let other := ty.display
      .error (.new .typeMismatch s!"SUM does not accept {other}")
  | .min | .max => a.inputType schema

end AggCall

structure WindowSpec where
  kind : WindowKind
  keys : List String
  aggs : List AggCall
  eventTimeField : Option String
  latenessMicros : Int64
  maxOverlap : ℕ
  maxFutureSkewMicros : Option Int64
  maxBufferedRows : ℕ

namespace WindowSpec

/-- `WindowSpec::new`. -/
def new (kind : WindowKind) (keys : List String) (aggs : List AggCall) : WindowSpec :=
  { kind, keys, aggs, eventTimeField := none, latenessMicros := 0,
    maxOverlap := defaultMaxHopOverlap, maxFutureSkewMicros := none, maxBufferedRows := 1024 }

variable (spec : WindowSpec)

/-- `WindowSpec::event_time`. -/
def eventTime (field : String) (latenessMicros : Int64) : WindowSpec :=
  { spec with eventTimeField := some field, latenessMicros }

/-- The event-time binding of the window: no source-side disorder, and a future skew. -/
def binding : Option EventTimeBinding :=
  spec.eventTimeField.map fun field =>
    { field, outOfOrdernessMicros := 0,
      maxFutureSkewMicros := some (spec.maxFutureSkewMicros.getD defaultMaxFutureSkewMicros) }

/-- The checks of `validate` that depend on the kind. -/
def validateKind : Result Unit :=
  match spec.kind with
  | .tumblingProcessingTime size =>
    if (size : ℤ) ≤ 0 then .error (.new .invalidArgument "tumbling size_micros must be > 0")
    else .ok ()
  | .count size =>
    if size = 0 then .error (.new .invalidArgument "count window size must be > 0") else .ok ()
  | .tumblingEventTime size =>
    if (size : ℤ) ≤ 0 then
      .error (.new .invalidArgument "event-time tumbling size_micros must be > 0")
    else .ok ()
  | .hoppingEventTime size slide | .hoppingProcessingTime size slide => do
    checkHopping size slide
    let _ ← checkHopOverlapBound size slide spec.maxOverlap
  | .slidingCount size step => do
    checkSlidingCount size step
    refuseIf (size > spec.maxBufferedRows)
      (.new .boundExceeded "sliding count size exceeds max_buffered_rows")
  | .slidingProcessingTime size delay | .slidingEventTime size delay =>
    checkSliding size delay
  | .sessionProcessingTime gap maxDuration | .sessionEventTime gap maxDuration => do
    checkSession gap maxDuration
    refuseIf (spec.latenessMicros ≠ 0) (.new .featureUnavailable
      "Session v1 is final-only with lateness=0; emitted sessions cannot be merged")

/-- The checks of `validate` that relate the kind to event time. -/
def validateDomain : Result Unit :=
  if ¬ spec.kind.usesEventTime then
    if spec.eventTimeField.isSome ∨ (spec.latenessMicros : ℤ) > 0 then
      .error (.new .invalidArgument
        "count / processing-time windows must not impersonate event-time: omit event_time_field and lateness, or reassign to TUMBLE/HOP event-time with holdback")
    else .ok ()
  else if spec.eventTimeField.getD "" = "" then
    .error (.new .invalidArgument
      "event-time window requires event_time_field (stream event-time binding)")
  else .ok ()

/-- `WindowSpec::validate`. -/
def validate (spec : WindowSpec) : Result Unit := do
  refuseIf (spec.aggs.isEmpty)
    (.new .invalidArgument "window aggregate requires at least one aggregate")
  refuseIf (spec.aggs.any fun a => a.func.isExtended && (a.input.isNone || a.countStar))
    (.new .invalidArgument "extended aggregate requires exactly one expression, not star")
  refuseIf ((spec.latenessMicros : ℤ) < 0)
    (.new .invalidArgument "lateness_micros / holdback L must be >= 0")
  spec.validateKind
  refuseIf (spec.kind.isBuffered ∧ ¬ (1 ≤ spec.maxBufferedRows ∧ spec.maxBufferedRows ≤ 16384))
    (.new .boundExceeded "max_buffered_rows must be 1..16384")
  refuseIf (spec.kind.isBuffered ∧ spec.latenessMicros ≠ 0)
    (.new .featureUnavailable "buffered windows v1 require lateness=0; final outputs are not retracted")
  spec.validateDomain
  match spec.kind.isNewWindow, spec.binding with
  | true, some binding => binding.validate
  | _, _ => .ok ()

/-! ### What a valid specification has -/

section Valid

variable {spec : WindowSpec}

section

variable (h : spec.validate = .ok ())

include h

theorem validate_eq_ok : spec.validateKind = .ok () ∧ spec.validateDomain = .ok () := by
  replace h := after_check (after_check (after_check h))
  obtain ⟨_, hk, h⟩ := bind_eq_ok.mp h
  replace h := after_check (after_check h)
  obtain ⟨_, hd, -⟩ := bind_eq_ok.mp h
  exact ⟨hk, hd⟩

theorem valid_sliding {size delay : Int64}
    (hk : spec.kind.Slides size delay) : 0 < (size : ℤ) ∧ 0 ≤ (delay : ℤ) := by
  have hc : checkSliding size delay = .ok () := by
    have := (validate_eq_ok h).1
    rcases hk with hk | hk <;> simpa only [validateKind, hk] using this
  unfold checkSliding at hc
  split_ifs at hc with hb
  omega

theorem valid_session {gap span : Int64} (hki : spec.kind.IsSession gap span) : 0 < (gap : ℤ) ∧ 0 < (span : ℤ) := by
  have hc : checkSession gap span = .ok () := by
    have hk := (validate_eq_ok h).1
    rcases hki with hki | hki <;> simp only [validateKind, hki] at hk <;>
      exact (bind_eq_ok.mp hk).choose_spec.1
  unfold checkSession at hc
  split_ifs at hc with hb
  omega

theorem valid_slidingCount {size step : ℕ} (hki : spec.kind = .slidingCount size step) : 0 < size := by
  have hk := (validate_eq_ok h).1
  simp only [validateKind, hki] at hk
  obtain ⟨_, hc, -⟩ := bind_eq_ok.mp hk
  unfold checkSlidingCount at hc
  split_ifs at hc with hb
  omega

theorem valid_eventTimeField (het : spec.kind.usesEventTime = true) : spec.eventTimeField.isSome := by
  have hd := (validate_eq_ok h).2
  cases hf : spec.eventTimeField with
  | some f => rfl
  | none => simp [validateDomain, het, hf] at hd

theorem valid_no_eventTimeField (het : spec.kind.usesEventTime = false) : spec.eventTimeField = none := by
  have hd := (validate_eq_ok h).2
  cases hf : spec.eventTimeField with
  | none => rfl
  | some f => simp [validateDomain, het, hf] at hd

end

end Valid

end WindowSpec

def keyFields (input : Schema) : List String → Result (List Field)
  | [] => .ok []
  | k :: rest =>
    match input.fieldByName k with
    | none => .error (.new .invalidArgument s!"unknown key '{k}'")
    | some f => do return f :: (← keyFields input rest)

/-- The aggregate columns of the result schema, all nullable. -/
def aggFields (input : Schema) : List AggCall → Result (List Field)
  | [] => .ok []
  | a :: rest => do
    let dataType ← a.resultType input
    return { name := a.aliasName, dataType, nullable := true } :: (← aggFields input rest)

/-- New event-time windows need an event-time column of a time type. -/
def checkEventTimeField (input : Schema) (spec : WindowSpec) : Result Unit :=
  if spec.kind.isNewWindow ∧ spec.kind.usesEventTime then
    match spec.eventTimeField.bind input.fieldByName with
    | none => .error (.new .invalidArgument "unknown event-time field for window")
    | some field =>
      match field.dataType with
      | .int64 | .timestampMicrosUTC => .ok ()
      | _ => .error (.new .typeMismatch "event-time window requires Int64/TimestampMicrosUTC")
  else .ok ()

def boundFields (kind : WindowKind) : List Field :=
  let bound (name : String) : Field := { name, dataType := .int64, nullable := false }
  if kind.isCount then [bound "count_start", bound "count_end"]
  else [bound "window_start", bound "window_end"]

/-- `window_output_schema`: keys, bounds, aggregates. -/
def windowOutputSchema (input : Schema) (spec : WindowSpec) : Result Schema := do
  checkEventTimeField input spec
  let keys ← keyFields input spec.keys
  let aggs ← aggFields input spec.aggs
  let schema : Schema := { fields := keys ++ boundFields spec.kind ++ aggs }
  schema.validate
  return schema

end Sparrow.Plan
