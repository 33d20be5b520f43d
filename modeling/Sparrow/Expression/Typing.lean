import Sparrow.Expression.Project

/-!
# Inferred types

`infer_type` (`sparrow-expr/src/infer.rs`) answers of which type the values of an expression
are. A call of `coalesce`, `greatest` or `least` is given the type of its first argument, and
no binder compares it with the types of the others: the value may come from one of those.
-/

namespace Sparrow.Expression

open Library Model List

variable {texts : Texts} {schema : Schema} {row : List Scalar} {f : Function} {name : String} {args : List Expr}
  {vals : List Scalar} {types : List DataType} {v w : Scalar} {T : DataType}

/-! ### Values of a type -/

theorem matchesType_dataType (v : Scalar) : v.matchesType v.dataType = true := by cases v <;> rfl

theorem matchesType_iff_of_plain (hv : Plain v.dataType = true) :
    v.matchesType T = true ↔ T = .dynamic ∨ T = v.dataType := by
  cases v <;> cases T <;> simp_all [Scalar.matchesType, Scalar.dataType, Plain]

theorem matchesType_congr (h : v.dataType = w.dataType) (hv : Plain v.dataType = true) :
    v.matchesType T = w.matchesType T := by
  rw [Bool.eq_iff_iff, matchesType_iff_of_plain hv, matchesType_iff_of_plain (h ▸ hv), h]

/-! ### How functions are typed -/

/-- Where the type of a call comes from. -/
inductive TypeRule where
  | own
  | forwards
  | rounds
  | picks
  deriving DecidableEq

def Function.typeRule : Function → TypeRule
  | .abs | .nullif => .forwards
  | .round | .floor | .ceil => .rounds
  | .coalesce | .greatest | .least => .picks
  | _ => .own

/-- The value that `coalesce`, `greatest` and `least` pick. -/
def Function.pick (f : Function) (vals : List Scalar) : Result (Option Scalar) :=
  match f with
  | .coalesce => .ok (vals.find? fun v => !v.isNull)
  | .greatest => vals.foldlM (better .lt) none
  | _ => vals.foldlM (better .gt) none

theorem inferTypes_ok : ∀ {args : List Expr},
    (inferTypes schema args).Ensures (List.Forall₂ (fun a t => inferType schema a = .ok t) args)
  | [] => .ok .nil
  | _ :: _ => .bind fun _ ht => .bind fun _ hts => .ok (.cons ht (inferTypes_ok hts))

theorem inferType_call_ok (hf : Function.ofName name = some f) : (inferType schema (.call name args)).Ensures fun T =>
    ∃ types, List.Forall₂ (fun a t => inferType schema a = .ok t) args types ∧
      (if f.isBuiltin then f.signature types else f.plainType name types) = .ok T := by
  intro T h
  unfold inferType at h
  simp only [hf] at h
  split_ifs at h ⊢ with hb
  all_goals
    replace h := after_check h
    obtain ⟨types, ht, h⟩ := bind_eq_ok.mp h
    exact ⟨types, inferTypes_ok ht, h⟩

theorem signature_ok : (f.signature types).Ensures
    (· = if f.isCollection then f.collectionOut else (f.builtinTypes types).2) := by
  refine .bind fun _ _ => ?_
  split_ifs
  · exact .bind fun _ _ => .ok (collectionTypes_snd f types)
  · exact .bind fun _ _ => .ok rfl

theorem builtinTypes_snd (ho : f.builtinOut = some T) (types : List DataType) : (f.builtinTypes types).2 = T := by
  cases f <;> first | exact Option.some.inj ho | exact nomatch ho

theorem evalBuiltin_matches (hb : f.isBuiltin = true) (hc : f.isCollection = false) (hru : f.typeRule = .own)
    (h : evalBuiltin texts f vals = .ok v) (hv : v.isNull = false) (types : List DataType) :
    v.matchesType (f.builtinTypes types).2 = true := by
  by_cases hf : f.Propagates
  · obtain ⟨-, rfl⟩ | ⟨-, -, ⟨T, ho, rfl⟩ | ⟨rfl, -⟩ | ⟨hr, -⟩⟩ := evalBuiltin_ok hf h
    · cases hv
    · rw [builtinTypes_snd ho]
      exact matchesType_dataType v
    · cases hv
    · obtain rfl | rfl | rfl := hr <;> cases hru
  · -- the three JSON functions
    have hj : f = .jsonGet ∨ f = .jsonStringify ∨ f = .jsonObject := by
      by_contra hne
      simp only [not_or] at hne
      exact hf ⟨hb, hc, hne.1, hne.2.1, hne.2.2⟩
    obtain rfl | rfl | rfl := hj
    · exact matchesType_dynamic v
    · exact matchesType_of_plain (jsonStringify_ok h) rfl
    · exact matchesType_dynamic v

theorem evalOwn_matches (hr : f.typeRule = .own)
    (hT : (if f.isBuiltin then f.signature types else f.plainType name types) = .ok T)
    (h : evalCallValues texts f vals = .ok v) (hv : v.isNull = false) : v.matchesType T = true := by
  unfold evalCallValues at h
  split_ifs at hT h with hb hc
  · obtain rfl := signature_ok hT
    rw [if_pos hc]
    obtain rfl | hd | hty := evalCollection_ok h
    · cases hv
    · exact hd ▸ matchesType_dynamic v
    · exact hty ▸ matchesType_dataType v
  · obtain rfl := signature_ok hT
    rw [if_neg hc]
    exact evalBuiltin_matches hb (by simpa using hc) hr h hv types
  · have ht : ∀ {name : String} {op : String → Scalar} {T' : DataType}, evalText name op vals.head? = .ok v →
        (∀ s, (op s).dataType = T') → T = T' → v.matchesType T = true := by
      rintro name op T' h hop rfl
      obtain ⟨-, rfl⟩ | ⟨-, rfl⟩ := evalText_ok hop h
      · cases hv
      · exact matchesType_dataType v
    cases f with
    | lower | upper | length | charLength => exact ht h (fun _ => rfl) (Except.ok.inj hT).symm
    | abs | nullif | coalesce | greatest | least => cases hr
    | _ => exact absurd rfl hb

theorem evalRounds_ok (hru : f.typeRule = .rounds) (h : evalCallValues texts f vals = .ok v) (hv : v.isNull = false) :
    ∃ w, vals.head? = some w ∧ w.isNull = false ∧ v.dataType = w.dataType ∧ Plain v.dataType = true := by
  have hr : f = .round ∨ f = .floor ∨ f = .ceil := by
    cases f <;> first | exact absurd hru (by decide) | simp
  have hf : f.Propagates := by
    obtain rfl | rfl | rfl := hr <;> exact ⟨rfl, rfl, by decide, by decide, by decide⟩
  have h : evalBuiltin texts f vals = .ok v := by simpa [evalCallValues, hf.1, hf.2.1] using h
  obtain ⟨-, rfl⟩ | ⟨hn, hfi, hg⟩ := evalBuiltin_ok hf h
  · cases hv
  cases vals with
  | nil => cases hfi
  | cons w rest =>
    have hw : w.isNull = false := by simp_all
    have ht : v.dataType = w.dataType := by
      obtain ⟨T, ho, -⟩ | ⟨rfl, -⟩ | ⟨-, ht, -⟩ := hg
      · obtain rfl | rfl | rfl := hr <;> cases ho
      · cases hv
      · exact ht
    refine ⟨w, rfl, hw, ht, ?_⟩
    -- the types of the values are checked again before the evaluation
    have hnu : numeric w.dataType = true := by
      replace h := after_check (after_check h)
      obtain ⟨_, hs, -⟩ := bind_eq_ok.mp h
      replace hs := after_check hs
      rw [if_neg (by simp [hf.2.1])] at hs
      obtain ⟨hva, -⟩ := guard_eq_ok.mp hs
      obtain rfl | rfl | rfl := hr <;> simpa [Function.builtinTypes] using hva
    cases w <;> simp_all [numeric, Scalar.dataType, Plain, Scalar.isNull]

theorem evalPicks_ok (hr : f.typeRule = .picks) (h : evalCallValues texts f vals = .ok v) (hv : v.isNull = false) :
    f.pick vals = .ok (some v) := by
  have he : ∀ {name : String} {replaces : Ordering}, evalExtreme name replaces vals = .ok v →
      vals.foldlM (better replaces) none = .ok (some v) := by
    intro name replaces h
    replace h := after_check h
    obtain ⟨last, hl, h⟩ := bind_eq_ok.mp h
    cases h
    cases last with
    | none => cases hv
    | some w => exact hl
  cases f with
  | coalesce =>
    replace h := after_check h
    cases hf : vals.find? fun v => !v.isNull with
    | none => simp only [hf] at h; obtain rfl := Except.ok.inj h; cases hv
    | some w => simp only [hf] at h; obtain rfl := Except.ok.inj h; exact congrArg Except.ok hf
  | greatest | least => exact he h
  | _ => exact absurd hr (by decide)

theorem evalForwards_ok (hr : f.typeRule = .forwards) (h : evalCallValues texts f vals = .ok v)
    (hv : v.isNull = false) :
    ∃ w, vals.head? = some w ∧ w.isNull = false ∧ ∀ T, v.matchesType T = w.matchesType T := by
  cases f with
  | abs =>
    obtain ⟨w, hw, ht, hn, hp | rfl⟩ := evalAbs_ok h
    · exact ⟨w, hw, hn ▸ hv, fun T => matchesType_congr ht hp⟩
    · cases hv
  | nullif =>
    obtain rfl | hh := evalNullif_ok h
    · cases hv
    · exact ⟨v, hh, hv, fun _ => rfl⟩
  | _ => exact absurd hr (by decide)

/-! ### The type of a call -/

section

variable {α β : Type} {R : α → β → Prop} {l : List α} {m : List β}

theorem head_of_forall₂ {b : β} (h : List.Forall₂ R l m) (hb : m.head? = some b) : ∃ a, l.head? = some a ∧ R a b := by
  cases h with
  | nil => cases hb
  | cons hh _ => exact ⟨_, rfl, Option.some.inj hb ▸ hh⟩

theorem getD_of_forall₂ {a : α} (h : List.Forall₂ R l m) (ha : l.head? = some a) (b : β) : R a (m.getD 0 b) := by
  cases h with
  | nil => cases ha
  | cons hh _ => exact Option.some.inj ha ▸ hh

end

theorem plainType_first (hr : f.typeRule = .forwards ∨ f.typeRule = .picks)
    (hT : (if f.isBuiltin then f.signature types else f.plainType name types) = .ok T) : T = types.getD 0 .null := by
  cases f <;> first
    | exact (Except.ok.inj hT).symm
    | exact Result.Ensures.bind (P := (· = types.getD 0 .null)) (fun _ _ => .ok rfl) hT
    | exact absurd hr (by decide)

theorem signature_rounds (hr : f.typeRule = .rounds)
    (hT : (if f.isBuiltin then f.signature types else f.plainType name types) = .ok T) :
    T = if types.getD 0 .null = .null then .float64 else types.getD 0 .null := by
  cases f <;> first
    | exact signature_ok hT
    | exact absurd hr (by decide)

/-! ### Where a type strays -/

variable (texts schema row)

/-- A call of `coalesce`, `greatest` or `least` whose first argument is of type `T` picks `b`, of type `T'`, with the
value `v`. -/
def Picks (name : String) (args : List Expr) (b : Expr) (v : Scalar) (T T' : DataType) : Prop :=
  ∃ f vals, Function.ofName name = some f ∧ f.typeRule = .picks ∧
    List.Forall₂ (fun a w => eval texts a schema row = .ok w) args vals ∧ f.pick vals = .ok (some v) ∧
    (∃ a, args.head? = some a ∧ inferType schema a = .ok T) ∧
    b ∈ args ∧ eval texts b schema row = .ok v ∧ inferType schema b = .ok T'

/-- An expression whose value is not of the inferred type: a `coalesce`, `greatest` or `least` picks a value of another type
where that decides the type of the result. -/
inductive Strays : Expr → Prop
  /-- What is picked has its own type, which is not that of the first argument. -/
  | picked {name : String} {args : List Expr} {b : Expr} {v : Scalar} {T T' : DataType} :
      Picks texts schema row name args b v T T' → v.dataType = T' → Plain T' = true → T' ≠ T → T ≠ .dynamic →
      Strays (.call name args)
  /-- What is picked is Dynamic or nested, and the value is not of the first type. -/
  | loose {name : String} {args : List Expr} {b : Expr} {v : Scalar} {T T' : DataType} :
      Picks texts schema row name args b v T T' → Plain T' = false → T' ≠ T → v.matchesType T = false →
      Strays (.call name args)
  /-- What is picked strays, and not to the first type. -/
  | strayed {name : String} {args : List Expr} {b : Expr} {v : Scalar} {T T' : DataType} :
      Picks texts schema row name args b v T T' → Strays b → v.matchesType T = false → Strays (.call name args)
  /-- The value of the first argument is passed on. -/
  | forwarded {name : String} {f : Function} {args : List Expr} {a : Expr} : Function.ofName name = some f →
      f.typeRule = .forwards → args.head? = some a → Strays a → Strays (.call name args)
  /-- It is rounded; only an argument inferred NULL may come out as the Float64 it is typed as. -/
  | rounded {name : String} {f : Function} {args : List Expr} {a : Expr} : Function.ofName name = some f →
      f.typeRule = .rounds → args.head? = some a → Strays a →
      ¬ (inferType schema a = .ok .null ∧ ∃ w, eval texts a schema row = .ok w ∧ w.dataType = .float64) →
      Strays (.call name args)
  /-- An operand strays, and with it the type of the result. -/
  | operand {op : BinaryOp} {l r e : Expr} {lv rv : Scalar} {lt rt T : DataType} : op.isPredicate = false →
      e = l ∨ e = r → Strays e → eval texts l schema row = .ok lv → eval texts r schema row = .ok rv →
      inferType schema l = .ok lt → inferType schema r = .ok rt → arithmeticType lt rt = .ok T →
      arithmeticResult lv.dataType rv.dataType ≠ T → Strays (.binary op l r)

/-- What is to be proved of an expression: a value that is not NULL has the inferred type exactly if it does not stray. -/
def Typed (e : Expr) : Prop :=
  ∀ {T : DataType} {v : Scalar}, inferType schema e = .ok T → eval texts e schema row = .ok v → v.isNull = false →
    (v.matchesType T = true ↔ ¬ Strays texts schema row e)

variable {texts schema row}

theorem Strays.of_call (hf : Function.ofName name = some f) (h : Strays texts schema row (.call name args)) :
    match f.typeRule with
    | .own => False
    | .forwards => ∃ a, args.head? = some a ∧ Strays texts schema row a
    | .rounds => ∃ a, args.head? = some a ∧ Strays texts schema row a ∧
        ¬ (inferType schema a = .ok .null ∧ ∃ w, eval texts a schema row = .ok w ∧ w.dataType = .float64)
    | .picks => ∃ b v T T', Picks texts schema row name args b v T T' ∧ v.matchesType T = false := by
  have hpi : ∀ {b v T T'}, Picks texts schema row name args b v T T' → f.typeRule = .picks := by
    rintro b v T T' ⟨f', vals, hf', hr, -⟩
    cases hf.symm.trans hf'
    exact hr
  cases h with
  | picked hp hv hpl hne hdy =>
    rw [hpi hp]
    refine ⟨_, _, _, _, hp, Bool.eq_false_iff.mpr fun hm => ?_⟩
    obtain h | h := (matchesType_iff_of_plain (hv ▸ hpl)).mp hm
    · exact hdy h
    · exact hne (hv.symm.trans h.symm)
  | loose hp _ _ hm | strayed hp _ hm =>
    rw [hpi hp]
    exact ⟨_, _, _, _, hp, hm⟩
  | forwarded hf' hr hh hs =>
    cases hf.symm.trans hf'
    rw [hr]
    exact ⟨_, hh, hs⟩
  | rounded hf' hr hh hs hfl =>
    cases hf.symm.trans hf'
    rw [hr]
    exact ⟨_, hh, hs, hfl⟩

theorem rightUnique_eval {vals' : List Scalar}
    (h : List.Forall₂ (fun a w => eval texts a schema row = .ok w) args vals)
    (h' : List.Forall₂ (fun a w => eval texts a schema row = .ok w) args vals') : vals = vals' :=
  right_unique_forall₂' (fun _ _ _ hw hw' => Except.ok.inj (hw.symm.trans hw')) h h'

theorem exists_arg (ha : List.Forall₂ (fun a w => eval texts a schema row = .ok w) args vals)
    (ht : List.Forall₂ (fun a t => inferType schema a = .ok t) args types) (hv : v ∈ vals) :
    ∃ b t, b ∈ args ∧ eval texts b schema row = .ok v ∧ inferType schema b = .ok t := by
  induction ha generalizing types with
  | nil => cases hv
  | cons hh _ ih =>
    cases ht with
    | cons hty ht =>
      obtain rfl | hv := List.mem_cons.mp hv
      · exact ⟨_, _, mem_cons_self, hh, hty⟩
      · obtain ⟨b, t, hb, hbt⟩ := ih ht hv
        exact ⟨b, t, mem_cons_of_mem _ hb, hbt⟩

theorem mem_of_pick (hr : f.typeRule = .picks) (h : f.pick vals = .ok (some v)) : v ∈ vals := by
  have hf : ∀ {replaces : Ordering}, vals.foldlM (better replaces) none = .ok (some v) → v ∈ vals := by
    intro replaces h
    obtain ⟨hn, -⟩ | ⟨a, ha, -, hs⟩ := foldlM_better_ok vals h
    · cases hn
    · exact Option.some.inj hs ▸ ha
  cases f with
  | coalesce => exact mem_of_find?_eq_some (Except.ok.inj h)
  | greatest | least => exact hf h
  | _ => exact absurd hr (by decide)

theorem typed_call (ih : ∀ a ∈ args, Typed texts schema row a) : Typed texts schema row (.call name args) := by
  intro T v hT h hv
  obtain ⟨f, vals, hf, -, har, h⟩ := eval_call_ok h
  obtain ⟨types, hty, hT⟩ := inferType_call_ok hf hT
  have hc : Strays texts schema row (.call name args) → _ := Strays.of_call hf
  cases hr : f.typeRule with
  | own =>
    simp only [hr] at hc
    exact iff_of_true (evalOwn_matches hr hT h hv) hc
  | forwards =>
    simp only [hr] at hc
    obtain ⟨w, hw, hnu, hsa⟩ := evalForwards_ok hr h hv
    obtain ⟨a, ha, he⟩ := head_of_forall₂ har hw
    have ht := getD_of_forall₂ hty ha .null
    rw [plainType_first (.inl hr) hT, hsa, ih a (mem_of_mem_head? ha) ht he hnu, not_iff_not]
    refine ⟨.forwarded hf hr ha, fun hs => ?_⟩
    obtain ⟨a', ha', hs⟩ := hc hs
    exact Option.some.inj (ha.symm.trans ha') ▸ hs
  | rounds =>
    simp only [hr] at hc
    obtain ⟨w, hw, hnu, hsa, hp⟩ := evalRounds_ok hr h hv
    obtain ⟨a, ha, he⟩ := head_of_forall₂ har hw
    have ht := getD_of_forall₂ hty ha .null
    have harg := ih a (mem_of_mem_head? ha) ht he hnu
    rw [matchesType_congr hsa hp, signature_rounds hr hT]
    generalize types.getD 0 .null = t at ht harg ⊢
    have hp : Plain w.dataType = true := hsa ▸ hp
    have hs : Strays texts schema row (.call name args) ↔ Strays texts schema row a ∧
        ¬ (t = .null ∧ w.dataType = .float64) := by
      refine ⟨fun hs => ?_, fun ⟨hs, hfl⟩ => .rounded hf hr ha hs fun ⟨hn, w', hw', hfl'⟩ => ?_⟩
      · obtain ⟨a', ha', hs, hfl⟩ := hc hs
        cases ha.symm.trans ha'
        exact ⟨hs, fun ⟨hn, hw⟩ => hfl ⟨ht.trans (congrArg _ hn), w, he, hw⟩⟩
      · cases he.symm.trans hw'
        exact hfl ⟨Except.ok.inj (ht.symm.trans hn), hfl'⟩
    rw [hs]
    split_ifs with hn
    · -- no value is of type NULL, so the argument strays
      have hfa : w.matchesType t ≠ true := by
        rw [hn, ne_eq, matchesType_iff_of_plain hp]
        intro h
        obtain h | h := h
        · cases h
        · rw [← h] at hp
          cases hp
      rw [matchesType_iff_of_plain hp]
      simp [not_not.mp (mt harg.mpr hfa), hn, eq_comm]
    · simp [harg, hn]
  | picks =>
    simp only [hr] at hc
    have hpi := evalPicks_ok hr h hv
    obtain ⟨b, t, hb, he, ht⟩ := exists_arg har hty (mem_of_pick hr hpi)
    obtain ⟨a, ha⟩ : ∃ a, args.head? = some a := ⟨_, head?_eq_some_head (ne_nil_of_mem hb)⟩
    have hfi := getD_of_forall₂ hty ha .null
    rw [plainType_first (.inr hr) hT]
    generalize types.getD 0 .null = T₀ at hfi
    have hpic : Picks texts schema row name args b v T₀ t := ⟨f, vals, hf, hr, har, hpi, ⟨a, ha, hfi⟩, hb, he, ht⟩
    constructor
    · intro hm hs
      obtain ⟨b', v', T', t', ⟨f', vals', hf', -, har', hp', ⟨a', ha', hfi'⟩, -⟩, hm'⟩ := hc hs
      cases hf.symm.trans hf'
      cases ha.symm.trans ha'
      cases hfi.symm.trans hfi'
      obtain rfl := rightUnique_eval har har'
      cases Except.ok.inj (hpi.symm.trans hp')
      exact Bool.false_ne_true (hm'.symm.trans hm)
    · intro hs
      by_contra hm
      have hm' := Bool.eq_false_iff.mpr hm
      have hno : v.matchesType t = true := (ih b hb ht he hv).mpr fun hst => hs (.strayed hpic hst hm')
      have hne : t ≠ T₀ := fun h => hm (h ▸ hno)
      cases hpl : Plain t with
      | false => exact hs (.loose hpic hpl hne hm')
      | true =>
        refine hs (.picked hpic (dataType_of_matchesType hno hpl) hpl hne fun hdy => ?_)
        exact hm (hdy ▸ matchesType_dynamic v)

/-! ### Arithmetic -/

variable {lt rt : DataType} {l r : Scalar}

theorem arithmeticResult_eq (hl : l.matchesType lt = true) (hr : r.matchesType rt = true)
    (hT : arithmeticType lt rt = .ok T)
    (hf : arithmeticResult l.dataType r.dataType = .float64 → isFloat l = true ∨ isFloat r = true) :
    arithmeticResult l.dataType r.dataType = T := by
  have hn : (lt = .int64 ∨ lt = .uInt64 ∨ lt = .float64 ∨ lt = .timestampMicrosUTC) ∧
      (rt = .int64 ∨ rt = .uInt64 ∨ rt = .float64 ∨ rt = .timestampMicrosUTC) := by
    cases lt <;> cases rt <;> simp [arithmeticType, isNumeric, isIntish] at hT ⊢
  obtain ⟨hlt, hrt⟩ := hn
  have hl : l.dataType = lt := dataType_of_matchesType hl (by obtain rfl | rfl | rfl | rfl := hlt <;> rfl)
  have hr : r.dataType = rt := dataType_of_matchesType hr (by obtain rfl | rfl | rfl | rfl := hrt <;> rfl)
  have hl' : isFloat l = true ↔ lt = .float64 := by
    subst hl
    cases l <;> simp [isFloat, Scalar.dataType]
  have hr' : isFloat r = true ↔ rt = .float64 := by
    subst hr
    cases r <;> simp [isFloat, Scalar.dataType]
  rw [hl, hr]
  obtain rfl | rfl | rfl | rfl := hlt <;> obtain rfl | rfl | rfl | rfl := hrt <;>
    simp_all [arithmeticResult, arithmeticType, isNumeric, isIntish]

variable {op : BinaryOp}

theorem isArithmetic_of_not_predicate (hop : op.isPredicate = false) : op.IsStrict ∧ op.IsArithmetic := by
  cases op <;> simp_all [BinaryOp.isPredicate, BinaryOp.IsStrict, BinaryOp.IsArithmetic]

theorem evalPredicate_bool (hop : op.isPredicate = true) (h : evalBinary op l r = .ok v)
    (hv : v.isNull = false) : v.dataType = .bool := by
  by_cases hs : op.IsStrict
  · obtain ⟨-, rfl⟩ | ⟨-, ⟨ha, -⟩ | ⟨-, hb⟩⟩ := evalBinary_ok hs h
    · cases hv
    · obtain rfl | rfl | rfl | rfl := ha <;> cases hop
    · exact hb
  · have hl : op = .and ∨ op = .or := by
      by_contra hne
      exact hs (not_or.mp hne)
    have h : evalLogic op l r = .ok v := by
      obtain rfl | rfl := hl <;> exact h
    obtain rfl | hb := (evalLogic_isNull hl h).1
    · cases hv
    · exact hb

theorem plain_arithmeticType : (arithmeticType lt rt).Ensures (Plain · = true) := by
  unfold arithmeticType
  split_ifs <;> first | exact .ok rfl | exact .error

theorem typed_binary {l r : Expr} (ihl : Typed texts schema row l) (ihr : Typed texts schema row r) :
    Typed texts schema row (.binary op l r) := by
  intro T v hT h hv
  obtain ⟨lt, hlt, hT⟩ := bind_eq_ok.mp hT
  obtain ⟨rt, hrt, hT⟩ := bind_eq_ok.mp hT
  obtain ⟨lv, rv, hlv, hrv, h⟩ := eval_binary_ok h
  split_ifs at hT with hop
  · cases hT
    refine iff_of_true (matchesType_of_plain (evalPredicate_bool hop h hv) rfl) fun hs => ?_
    cases hs with
    | operand ho' => exact Bool.false_ne_true (ho'.symm.trans hop)
  · have hop : op.isPredicate = false := by simpa using hop
    obtain ⟨hst, ha⟩ := isArithmetic_of_not_predicate hop
    obtain ⟨-, rfl⟩ | ⟨⟨hl, hr⟩, ⟨-, h⟩ | ⟨hpr, -⟩⟩ := evalBinary_ok hst h
    · cases hv
    · obtain ⟨⟨-, -, rfl⟩ | ⟨-, hre⟩, hf⟩ := evalArith_ok ha h
      · cases hv
      have hp : Plain v.dataType = true := hre ▸ plain_arithmeticResult _ _
      have hm : v.matchesType T = true ↔ arithmeticResult lv.dataType rv.dataType = T := by
        rw [matchesType_iff_of_plain hp, ← hre]
        refine ⟨fun h => ?_, fun h => .inr h.symm⟩
        obtain rfl | h := h
        · cases plain_arithmeticType hT
        · exact h.symm
      rw [hm]
      constructor
      · intro hsa hs
        cases hs with
        | operand _ _ _ hlv' hrv' hl' hr' hT' hne =>
          cases hlv.symm.trans hlv'
          cases hrv.symm.trans hrv'
          cases hlt.symm.trans hl'
          cases hrt.symm.trans hr'
          cases hT.symm.trans hT'
          exact hne hsa
      · intro hn
        by_contra hne
        have ho : ∀ e, e = l ∨ e = r → ¬ Strays texts schema row e := fun e he hs =>
          hn (.operand hop he hs hlv hrv hlt hrt hT hne)
        refine hne (arithmeticResult_eq ((ihl hlt hlv hl).mpr (ho l (.inl rfl)))
          ((ihr hrt hrv hr).mpr (ho r (.inr rfl))) hT fun h => hf (hre.trans h))
    · exact absurd hpr (by simp [hop])

/-! ### Expressions -/

/-- **On a row that fits, a value that is not NULL is of the inferred type exactly if its expression does not stray.** -/
theorem matchesType_iff_not_strays (hr : Row.Fits schema ⟨row⟩) (e : Expr) : Typed texts schema row e := by
  induction e using Expr.induction with
  | column name =>
    intro T v hT h hv
    obtain ⟨fld, hf, ht⟩ := eval_column_ok hr h
    unfold inferType at hT
    simp only [hf, Except.ok.injEq] at hT
    exact iff_of_true (hT ▸ ht.2 hv) nofun
  | literal value =>
    intro T v hT h _
    cases h
    cases hT
    exact iff_of_true (matchesType_dataType _) nofun
  | cast e target =>
    intro T v hT h hv
    obtain ⟨_, -, hT⟩ := bind_eq_ok.mp hT
    cases hT
    obtain ⟨w, -, h⟩ := eval_cast_ok h
    exact iff_of_true ((cast_ok h).1 hv) nofun
  | tryCast e target =>
    intro T v hT h hv
    obtain ⟨_, -, hT⟩ := bind_eq_ok.mp hT
    cases hT
    obtain ⟨w, -, h⟩ := eval_tryCast_ok h
    exact iff_of_true ((cast_ok h).1 hv) nofun
  | binary op l r ihl ihr => exact typed_binary ihl ihr
  | isNull e =>
    intro T v hT h _
    cases hT
    obtain ⟨b, rfl⟩ := eval_isNull_ok h
    exact iff_of_true rfl nofun
  | isNotNull e =>
    intro T v hT h _
    cases hT
    obtain ⟨b, rfl⟩ := eval_isNotNull_ok h
    exact iff_of_true rfl nofun
  | not e =>
    intro T v hT h hv
    cases hT
    obtain ⟨w, -, ⟨-, rfl⟩ | ⟨b, -, rfl⟩⟩ := eval_not_ok h
    · cases hv
    · exact iff_of_true rfl nofun
  | call name args ih => exact typed_call ih
  | dynamicGet e key =>
    intro T v hT _ _
    obtain ⟨_, -, hT⟩ := bind_eq_ok.mp hT
    obtain ⟨_, -, hT⟩ := bind_eq_ok.mp hT
    cases hT
    exact iff_of_true (matchesType_dynamic v) nofun

/-! ### Projections and aggregate inputs -/

/-- The type of the input of an aggregate call: `AggCall::input_type`. -/
def aggInputType (input : Option Expr) (countStar : Bool) (schema : Schema) : Result DataType :=
  match input with
  | some e => if countStar then .ok .int64 else inferType schema e
  | none => .ok .int64

theorem mistypes_none_iff (hr : Row.Fits schema ⟨row⟩) {specs : List NamedExpr} {fields : List Field}
    {values : List Scalar} (hf : List.Forall₂ (fun s f => inferType schema s.expr = .ok f.dataType) specs fields)
    (hva : List.Forall₂ (fun s w => eval texts s.expr schema row = .ok w) specs values) :
    (∀ p ∈ values.zip fields, checkValue p.1 p.2 ≠ .error (mistyped p.2 p.1)) ↔
      ∀ p ∈ specs.zip values, p.2.isNull = false → ¬ Strays texts schema row p.1.expr := by
  induction hf generalizing values with
  | nil => simp
  | cons hfl _ ih =>
    cases hva with
    | cons hv hva =>
      rw [zip_cons_cons, zip_cons_cons, forall_mem_cons, forall_mem_cons, ih hva]
      refine and_congr_left fun _ => ?_
      rw [ne_eq, checkValue_eq_mistyped, not_and, Bool.not_eq_false]
      exact forall_congr' fun hn => matchesType_iff_not_strays hr _ hfl hv hn

/-- **Typing.** On a row that fits, a value that is not NULL is of the inferred type exactly if its expression does not
stray: no `coalesce`, `greatest` or `least` picks an argument of another type than its first where that decides the type of
the result. So it is for the columns of a projection and the builder that checks them, and for the inputs of aggregates. -/
theorem typing (texts : Texts) (schema : Schema) (row : List Scalar) (hrow : Row.Fits schema ⟨row⟩) :
    (∀ e T v, inferType schema e = .ok T → eval texts e schema row = .ok v → v.isNull = false →
      (v.matchesType T = true ↔ ¬ Strays texts schema row e)) ∧
    (∀ specs output values, projectSchema schema specs = .ok output →
      projectValues texts schema specs row = .ok values →
      ((∀ p ∈ values.zip output.fields, checkValue p.1 p.2 ≠ .error (mistyped p.2 p.1)) ↔
        ∀ p ∈ specs.zip values, p.2.isNull = false → ¬ Strays texts schema row p.1.expr)) ∧
    ∀ e T v, aggInputType (some e) false schema = .ok T → eval texts e schema row = .ok v → v.isNull = false →
      (v.matchesType T = true ↔ ¬ Strays texts schema row e) := by
  refine ⟨fun e T v hT h hv => matchesType_iff_not_strays hrow e hT h hv, fun specs output values hs hva => ?_,
    fun e T v hT h hv => matchesType_iff_not_strays hrow e hT h hv⟩
  exact mistypes_none_iff hrow ((projectSchema_ok hs).imp fun _ _ => And.left) (projectValues_ok hva)

/-- A column of numbers that may be NULL. -/
def measured : Schema := ⟨[⟨"n", .int64, true⟩]⟩

/-- The call `coalesce(n, 'none')`. -/
def orText : Expr := .call "coalesce" [.column "n", .literal (.utf8 "none")]

theorem typing_sample : Row.Fits measured ⟨[.int64 5]⟩ ∧
    ((Scalar.int64 5).matchesType .int64 = true ↔ ¬ Strays noTexts measured [.int64 5] orText) :=
  have hfits : Row.Fits measured ⟨[.int64 5]⟩ := by decide
  ⟨hfits, (typing noTexts measured [.int64 5] hfits).1 orText .int64 (.int64 5) rfl rfl rfl⟩

/-- Text in the place of a number: the call is bound and published as a number, and the builder refuses the row. -/
theorem text_for_number :
    Row.Fits measured ⟨[.null]⟩ ∧ (bind measured orText).isOk = true ∧ inferType measured orText = .ok .int64 ∧
      eval noTexts orText measured [.null] = .ok (.utf8 "none") ∧ (Scalar.utf8 "none").matchesType .int64 = false ∧
      projectSchema measured [⟨"q", orText⟩] = .ok ⟨[⟨"q", .int64, false⟩]⟩ ∧
      projectRow noTexts measured ⟨[⟨"q", .int64, false⟩]⟩ [⟨"q", orText⟩] [.null] =
        .error (mistyped ⟨"q", .int64, false⟩ (.utf8 "none")) :=
  ⟨by decide, rfl, rfl, rfl, rfl, rfl, rfl⟩

end Sparrow.Expression
