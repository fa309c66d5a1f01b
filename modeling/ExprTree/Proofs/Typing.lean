import ExprTree.Proofs.Lexical

set_option autoImplicit false

/-! # Types of values and trees

A tree is built together with its type, and nothing checks that the operands fit. For trees over
scalars, strings and functions whose operands do fit, `Node.Core` says so; it is stated by the
functions that build trees. `Value.Has` says which values belong to a type. This is finer than the
check made on arguments: a function has to have exactly the signature of its type.

The operators and conversions that are selected for operand types give values of the result type, or
fail in one of a few ways.
-/

namespace ExprTree

open Lexical (Closure)

/-! ## Types -/

/-- Types whose values are compared by content and are never missing. -/
def Ty.isScalar : Ty → Bool
  | .unit | .bool | .char | .int _ | .f32 | .f64 => true
  | _ => false

mutual

/-- Scalars, optional scalars, strings, and functions between such types. -/
def Ty.isCore : Ty → Bool
  | .string => true
  | .nullable t => t.isScalar
  | .function params ret => Ty.areCore params && Ty.isCore ret
  | .unit | .bool | .char | .int _ | .f32 | .f64 => true
  | _ => false

/-- All of the types are. -/
def Ty.areCore : List Ty → Bool
  | [] => true
  | t :: ts => Ty.isCore t && Ty.areCore ts

end

/-- Function types. -/
def Ty.isFunction : Ty → Bool
  | .function .. => true
  | _ => false

theorem Ty.isScalar_of_isNumeric {t : Ty} (h : t.isNumeric = true) : t.isScalar = true := by
  cases t <;> first
    | rfl
    | simp [Ty.isNumeric, Ty.isInteger, Ty.isSigned, Ty.isUnsigned, Ty.isFloat] at h

/-! ## Values -/

/-- The value belongs to the type. A function belongs to a function type if it is one of the
closures at hand and has that signature. -/
def Value.Has (schema : Schema) (closures : Array Closure) (v : Value) : Ty → Prop
  | .nullable t => v.isNull = true ∨ v.Has schema closures t
  | .function params ret => v.isNull = true ∨ ∃ f c, v = .function f ∧ f.signature = ⟨params, ret⟩ ∧
      closures[f.id]? = some c ∧ c.lambda.signature = ⟨params, ret⟩
  | t => v.conformsTo schema t = true

section Values

variable {schema : Schema} {closures : Array Closure} {v : Value}

theorem Value.eq_null (h : v.isNull = true) : v = .null := by
  cases v <;> first | rfl | cases h

/-- Closures that are added later change nothing. -/
theorem Value.Has.mono {closures' : Array Closure}
    (hc : ∀ (i : Nat) c, closures[i]? = some c → closures'[i]? = some c) :
    {t : Ty} → v.Has schema closures t → v.Has schema closures' t
  | .nullable _, h => h.imp id (Value.Has.mono hc)
  | .function .., .inl h => .inl h
  | .function .., .inr ⟨f, c, hv, hf, hi, hs⟩ => .inr ⟨f, c, hv, hf, hc _ _ hi, hs⟩
  | .unit, h | .bool, h | .char, h | .int _, h | .f32, h | .f64, h | .string, h | .object, h
  | .array _, h | .list _, h | .expression .., h | .record _, h => h

/-- What belongs to a type passes the check made on arguments. -/
theorem Value.Has.conformsTo : {t : Ty} → v.Has schema closures t → v.conformsTo schema t = true
  | .nullable _, h => by
      rw [Value.conformsTo, Bool.or_eq_true]
      exact h.imp id Value.Has.conformsTo
  | .function .., .inl h => by
      rw [Value.eq_null h]
      rfl
  | .function .., .inr ⟨_, _, hv, _⟩ => by
      rw [hv]
      rfl
  | .unit, h | .bool, h | .char, h | .int _, h | .f32, h | .f64, h | .string, h | .object, h
  | .array _, h | .list _, h | .expression .., h | .record _, h => h

/-- Apart from functions, what passes the check belongs to the type. -/
theorem Value.Has.of_conformsTo {t : Ty} (hf : t.isFunction = false) (ht : t.isCore = true)
    (h : v.conformsTo schema t = true) : v.Has schema closures t := by
  cases t with
  | nullable t =>
      rw [Value.conformsTo, Bool.or_eq_true] at h
      refine h.imp id fun h => ?_
      cases t <;> first | exact h | cases ht
  | function => cases hf
  | _ => exact h

theorem Value.Has.of_scalar {t : Ty} (ht : t.isScalar = true)
    (h : v.conformsTo schema t = true) : v.Has schema closures t := by
  cases t <;> first | exact h | cases ht

/-- A value that is there belongs to the type without the option. -/
theorem Value.Has.nonNullable {t : Ty} (h : v.Has schema closures t)
    (hv : v.isNull = false ∨ t.isNullable = false) : v.Has schema closures t.nonNullable := by
  cases t with
  | nullable t =>
      rcases hv with hv | hv
      · exact h.resolve_left (by simp [hv])
      · cases hv
  | _ => exact h

theorem Ty.nonNullable_eq_self {t : Ty} (h : t.isNullable = false) : t.nonNullable = t := by
  cases t with
  | nullable t => cases h
  | _ => rfl

/-- A value that belongs to the type without the option belongs to the type. -/
theorem Value.Has.of_nonNullable {t : Ty} (h : v.Has schema closures t.nonNullable) :
    v.Has schema closures t := by
  cases t with
  | nullable t => exact .inr h
  | _ => exact h

/-- A missing value belongs to every type that admits it. -/
theorem Value.Has.null {t : Ty} (ht : t.admitsNull = true) :
    Value.Has schema closures .null t := by
  cases t with
  | nullable t => exact .inl rfl
  | function => exact .inl rfl
  | _ => exact ht

theorem Ty.admitsNull_optional (t : Ty) : t.optional.admitsNull = true := by
  unfold Ty.optional
  split
  · assumption
  · rfl

theorem Value.Has.optional {t : Ty} (h : v.Has schema closures t) :
    v.Has schema closures t.optional := by
  unfold Ty.optional
  split
  · exact h
  · exact .inr h

/-! ## Canonical forms -/

theorem Value.eq_bool (h : v.conformsTo schema .bool = true) : ∃ b, v = .bool b := by
  cases v <;> first | exact ⟨_, rfl⟩ | cases h

theorem Value.eq_char (h : v.conformsTo schema .char = true) : ∃ c, v = .char c := by
  cases v <;> first | exact ⟨_, rfl⟩ | cases h

theorem Value.eq_f32 (h : v.conformsTo schema .f32 = true) : ∃ x, v = .f32 x := by
  cases v <;> first | exact ⟨_, rfl⟩ | cases h

theorem Value.eq_f64 (h : v.conformsTo schema .f64 = true) : ∃ x, v = .f64 x := by
  cases v <;> first | exact ⟨_, rfl⟩ | cases h

theorem Value.eq_int {t : IntType} (h : v.conformsTo schema (.int t) = true) :
    ∃ w, v = .int t w := by
  cases v with
  | int s w =>
      obtain rfl : s = t := by simpa [Value.conformsTo] using h
      exact ⟨w, rfl⟩
  | _ => cases h

theorem Value.asWord_int {t : IntType} (w : Word t) : (Value.int t w).asWord t = .ok w := by
  simp [Value.asWord]

end Values

/-! ## Operators -/

/-- The ways in which trees with fitting operands may fail. -/
def RuntimeError.isExpected : RuntimeError → Bool
  | .overflow | .divideByZero | .nullReference | .nullValue | .recursionLimit _ => true
  | _ => false

/-- A result of the type, or a failure to be expected. -/
def Delivers (schema : Schema) (t : Ty) : Except RuntimeError Value → Prop
  | .ok v => v.conformsTo schema t = true
  | .error e => e.isExpected = true

/-- The type of the numbers that are compared. -/
def Ordered.ty : Ordered → Ty
  | .char => .char
  | .int t => .int t
  | .f32 => .f32
  | .f64 => .f64

/-- The operator takes operands of types `a` and `b` to results of type `t`. -/
def BinaryOp.Takes (a b t : Ty) : BinaryOp → Prop
  | .concat => a = .string ∧ b = .string ∧ t = .string
  | .wrapping _ s | .checked _ s | .divide s | .modulo s | .bits _ s =>
      a = .int s ∧ b = .int s ∧ t = .int s
  | .float32 _ => a = .f32 ∧ b = .f32 ∧ t = .f32
  | .float64 _ => a = .f64 ∧ b = .f64 ∧ t = .f64
  | .shiftLeft s | .shiftRight s => a = .int s ∧ b = .int .i32 ∧ t = .int s
  | .bools _ => a = .bool ∧ b = .bool ∧ t = .bool
  | .equal | .notEqual => t = .bool
  | .order _ o => a = o.ty ∧ b = o.ty ∧ t = .bool

section Operators

variable {schema : Schema}

theorem Delivers.int {t : IntType} (w : Word t) : Delivers schema (.int t) (.ok (.int t w)) :=
  beq_self_eq_true t

theorem ArithOp.checked_delivers {t : IntType} (op : ArithOp) (a b : Word t) :
    Delivers schema (.int t) (do return .int t (← op.checked a b)) := by
  unfold ArithOp.checked
  split
  · exact .int _
  · rfl

theorem Word.divide_delivers {t : IntType} (a b : Word t) :
    Delivers schema (.int t) (do return .int t (← a.divide b)) := by
  unfold Word.divide
  split
  · rfl
  · split
    · exact .int _
    · rfl

theorem Word.modulo_delivers {t : IntType} (a b : Word t) :
    Delivers schema (.int t) (do return .int t (← a.modulo b)) := by
  unfold Word.modulo
  split
  · rfl
  · split
    · rfl
    · exact .int _

theorem OrderOp.apply_delivers (op : OrderOp) {o : Ordered} {l r : Value}
    (hl : l.conformsTo schema o.ty = true) (hr : r.conformsTo schema o.ty = true) :
    Delivers schema .bool (do return .bool (← op.apply o l r)) := by
  cases o with
  | char =>
      obtain ⟨a, rfl⟩ := Value.eq_char hl
      obtain ⟨b, rfl⟩ := Value.eq_char hr
      rfl
  | int t =>
      obtain ⟨a, rfl⟩ := Value.eq_int hl
      obtain ⟨b, rfl⟩ := Value.eq_int hr
      simp only [OrderOp.apply, Value.asWord_int]
      rfl
  | f32 =>
      obtain ⟨a, rfl⟩ := Value.eq_f32 hl
      obtain ⟨b, rfl⟩ := Value.eq_f32 hr
      rfl
  | f64 =>
      obtain ⟨a, rfl⟩ := Value.eq_f64 hl
      obtain ⟨b, rfl⟩ := Value.eq_f64 hr
      rfl

/-- A string has a text, also a missing one. -/
theorem Value.concatText_of_string (heap : Heap) {v : Value}
    (h : v.conformsTo schema .string = true) : ∃ s, v.concatText heap = some s := by
  cases v <;> first | exact ⟨_, rfl⟩ | cases h

/-- **Operators keep their promise.** -/
theorem BinaryOp.apply_delivers {op : BinaryOp} {a b t : Ty} (h : op.Takes a b t) (heap : Heap)
    {l r : Value} (hl : l.conformsTo schema a = true) (hr : r.conformsTo schema b = true) :
    ∃ x, op.apply heap l r = some x ∧ Delivers schema t x := by
  cases op with
  | equal | notEqual =>
      subst h
      exact ⟨_, rfl, rfl⟩
  | concat =>
      obtain ⟨rfl, rfl, rfl⟩ := h
      obtain ⟨x, hx⟩ := Value.concatText_of_string heap hl
      obtain ⟨y, hy⟩ := Value.concatText_of_string heap hr
      exact ⟨.ok (.string (x ++ y)), by simp [BinaryOp.apply, hx, hy], rfl⟩
  | wrapping | shiftLeft | shiftRight | bits =>
      obtain ⟨rfl, rfl, rfl⟩ := h
      obtain ⟨x, rfl⟩ := Value.eq_int hl
      obtain ⟨y, rfl⟩ := Value.eq_int hr
      simp only [BinaryOp.apply, Value.asWord_int]
      exact ⟨_, rfl, .int _⟩
  | checked op s =>
      obtain ⟨rfl, rfl, rfl⟩ := h
      obtain ⟨x, rfl⟩ := Value.eq_int hl
      obtain ⟨y, rfl⟩ := Value.eq_int hr
      simp only [BinaryOp.apply, Value.asWord_int]
      exact ⟨_, rfl, op.checked_delivers x y⟩
  | divide s =>
      obtain ⟨rfl, rfl, rfl⟩ := h
      obtain ⟨x, rfl⟩ := Value.eq_int hl
      obtain ⟨y, rfl⟩ := Value.eq_int hr
      simp only [BinaryOp.apply, Value.asWord_int]
      exact ⟨_, rfl, x.divide_delivers y⟩
  | modulo s =>
      obtain ⟨rfl, rfl, rfl⟩ := h
      obtain ⟨x, rfl⟩ := Value.eq_int hl
      obtain ⟨y, rfl⟩ := Value.eq_int hr
      simp only [BinaryOp.apply, Value.asWord_int]
      exact ⟨_, rfl, x.modulo_delivers y⟩
  | float32 op =>
      obtain ⟨rfl, rfl, rfl⟩ := h
      obtain ⟨x, rfl⟩ := Value.eq_f32 hl
      obtain ⟨y, rfl⟩ := Value.eq_f32 hr
      exact ⟨_, rfl, rfl⟩
  | float64 op =>
      obtain ⟨rfl, rfl, rfl⟩ := h
      obtain ⟨x, rfl⟩ := Value.eq_f64 hl
      obtain ⟨y, rfl⟩ := Value.eq_f64 hr
      exact ⟨_, rfl, rfl⟩
  | bools op =>
      obtain ⟨rfl, rfl, rfl⟩ := h
      obtain ⟨x, rfl⟩ := Value.eq_bool hl
      obtain ⟨y, rfl⟩ := Value.eq_bool hr
      exact ⟨_, rfl, rfl⟩
  | order op o =>
      obtain ⟨rfl, rfl, rfl⟩ := h
      exact ⟨_, rfl, op.apply_delivers hl hr⟩

/-- The results of operators are no functions. -/
theorem BinaryOp.Takes.has {op : BinaryOp} {a b t : Ty} (h : op.Takes a b t)
    {closures : Array Closure} {v : Value} (hv : v.conformsTo schema t = true) :
    v.Has schema closures t := by
  cases op with
  | equal | notEqual =>
      subst h
      exact hv
  | _ =>
      obtain ⟨-, -, rfl⟩ := h
      exact hv

theorem BinaryOp.numeric_takes {int : IntType → BinaryOp} {fop : FloatOp} {ty : Ty} {op : BinaryOp}
    (h : numeric int fop ty = some op) (hint : ∀ t, (int t).Takes (.int t) (.int t) (.int t)) :
    op.Takes ty ty ty := by
  cases ty with
  | int t =>
      cases h
      exact hint t
  | f32 =>
      cases h
      exact ⟨rfl, rfl, rfl⟩
  | f64 =>
      cases h
      exact ⟨rfl, rfl, rfl⟩
  | _ => cases h

theorem BinaryOp.logical_takes {bop : BitOp} {ty : Ty} {op : BinaryOp}
    (h : logical bop ty = some op) : op.Takes ty ty ty := by
  cases ty with
  | bool =>
      cases h
      exact ⟨rfl, rfl, rfl⟩
  | int t =>
      cases h
      exact ⟨rfl, rfl, rfl⟩
  | _ => cases h

theorem BinaryOp.integer_takes {int : IntType → BinaryOp} {ty : Ty} {op : BinaryOp}
    (h : integer int ty = some op) (hint : ∀ t, (int t).Takes (.int t) (.int .i32) (.int t)) :
    op.Takes ty (.int .i32) ty := by
  cases ty with
  | int t =>
      cases h
      exact hint t
  | _ => cases h

theorem BinaryOp.ordered_takes {cmp : OrderOp} {ty : Ty} {op : BinaryOp}
    (h : ty.ordered?.map (.order cmp) = some op) : op.Takes ty ty .bool := by
  cases ty with
  | char | int t | f32 | f64 =>
      cases h
      exact ⟨rfl, rfl, rfl⟩
  | _ => cases h

/-- The type of the right operand, given that of the left one. -/
def Kind.rightType (kind : Kind) (left : Ty) : Ty :=
  match kind with
  | .leftShift | .rightShift => .int .i32
  | _ => left

/-- The type of the result on plain operands. -/
def Kind.resultType (kind : Kind) (left : Ty) : Ty := if kind.isRelational then .bool else left

/-- The operator that is selected takes the operands for which it is selected. -/
theorem BinaryOp.select?_takes {kind : Kind} {ty : Ty} {op : BinaryOp}
    (h : select? kind ty = some op) : op.Takes ty (kind.rightType ty) (kind.resultType ty) := by
  cases kind with
  | add =>
      simp only [select?] at h
      split at h
      case isTrue hs =>
        cases h
        exact ⟨hs, hs, hs⟩
      case isFalse => exact numeric_takes h fun _ => ⟨rfl, rfl, rfl⟩
  | addChecked | subtract | subtractChecked | multiply | multiplyChecked | divide | modulo =>
      exact numeric_takes h fun _ => ⟨rfl, rfl, rfl⟩
  | power =>
      cases ty with
      | f32 | f64 =>
          cases h
          exact ⟨rfl, rfl, rfl⟩
      | _ => cases h
  | leftShift | rightShift => exact integer_takes h fun _ => ⟨rfl, rfl, rfl⟩
  | and | or | exclusiveOr => exact logical_takes h
  | equal | notEqual =>
      cases h
      exact rfl
  | lessThan | lessThanOrEqual | greaterThan | greaterThanOrEqual => exact ordered_takes h
  | _ => cases h

/-- The operator takes operands of type `t` to results of type `t`. -/
def UnaryOp.Takes (t : Ty) : UnaryOp → Prop
  | .negate s | .negateChecked s | .notBits s => t = .int s
  | .negate32 => t = .f32
  | .negate64 => t = .f64
  | .plus => True
  | .notBool => t = .bool
  | .arrayLength => False

theorem Word.checkedNeg_delivers {t : IntType} (a : Word t) :
    Delivers schema (.int t) (do return .int t (← a.checkedNeg)) := by
  unfold Word.checkedNeg
  split
  · exact .int _
  · rfl

theorem UnaryOp.apply_delivers {op : UnaryOp} {t : Ty} (h : op.Takes t) {v : Value}
    (hv : v.conformsTo schema t = true) : Delivers schema t (op.apply v) := by
  cases op with
  | negate | notBits =>
      subst h
      obtain ⟨x, rfl⟩ := Value.eq_int hv
      simp only [UnaryOp.apply, Value.asWord_int]
      exact .int _
  | negateChecked s =>
      subst h
      obtain ⟨x, rfl⟩ := Value.eq_int hv
      simp only [UnaryOp.apply, Value.asWord_int]
      exact x.checkedNeg_delivers
  | negate32 =>
      subst h
      obtain ⟨x, rfl⟩ := Value.eq_f32 hv
      rfl
  | negate64 =>
      subst h
      obtain ⟨x, rfl⟩ := Value.eq_f64 hv
      rfl
  | plus => exact hv
  | notBool =>
      subst h
      obtain ⟨b, rfl⟩ := Value.eq_bool hv
      rfl
  | arrayLength => exact h.elim

/-- The operator that is selected takes the operand for which it is selected, unless it is asked
for the length of an array. -/
theorem UnaryOp.select?_takes {kind : Kind} {ty : Ty} {op : UnaryOp} (hk : kind ≠ .arrayLength)
    (h : select? kind ty = some op) : op.Takes ty ∧ ty.isScalar = true := by
  unfold select? at h
  -- negation, complement and `+` each look at the type; the last branches select nothing
  split at h
  all_goals first | cases h; exact ⟨rfl, rfl⟩ | skip
  · split at h
    case isTrue hn =>
      cases h
      exact ⟨trivial, Ty.isScalar_of_isNumeric hn⟩
    case isFalse => cases h
  · exact absurd rfl hk
  · cases h

/-! ## Conversions -/

/-- Scalars and optional scalars. -/
def Ty.isOptionalScalar (t : Ty) : Bool := t.nonNullable.isScalar

theorem Ty.isOptionalScalar.cases {t : Ty} (h : t.isOptionalScalar = true) :
    t.isScalar = true ∨ ∃ u, t = .nullable u ∧ u.isScalar = true := by
  cases t with
  | nullable u => exact .inr ⟨u, rfl, h⟩
  | _ => exact .inl h

theorem Value.Has.of_optionalScalar {closures : Array Closure} {v : Value} {t : Ty}
    (ht : t.isOptionalScalar = true) (h : v.conformsTo schema t = true) :
    v.Has schema closures t := by
  rcases Ty.isOptionalScalar.cases ht with hs | ⟨u, rfl, hu⟩
  · exact .of_scalar hs h
  · exact .of_conformsTo rfl hu h

/-- Converting a number cannot fail except by an overflow. -/
theorem Numeric.convert_cases (schema : Schema) {t : Ty} {target : Numeric}
    (ht : Numeric.ofTy? t = some target) (checked : Bool) (n : Number) :
    (∃ v, target.convert checked n = .ok v ∧ v.conformsTo schema t = true) ∨
      target.convert checked n = .error .overflow := by
  cases t with
  | int s =>
      cases ht
      simp only [Numeric.convert]
      split
      · split
        · exact .inl ⟨_, rfl, beq_self_eq_true s⟩
        · exact .inr rfl
      · exact .inl ⟨_, rfl, beq_self_eq_true s⟩
  | char =>
      cases ht
      simp only [Numeric.convert]
      split
      · split
        · exact .inl ⟨_, rfl, rfl⟩
        · exact .inr rfl
      · exact .inl ⟨_, rfl, rfl⟩
  | f32 =>
      cases ht
      exact .inl ⟨_, rfl, rfl⟩
  | f64 =>
      cases ht
      exact .inl ⟨_, rfl, rfl⟩
  | _ => cases ht

theorem Numeric.convert_delivers {t : Ty} {target : Numeric} (ht : Numeric.ofTy? t = some target)
    (checked : Bool) (n : Number) : Delivers schema t (target.convert checked n) := by
  rcases Numeric.convert_cases schema ht checked n with ⟨v, hv, hconf⟩ | hv
  · rw [hv]
    exact hconf
  · rw [hv]
    rfl

theorem Number.ofValue_eq_ok {s : Ty} (hs : (Numeric.ofTy? s).isSome = true) {v : Value}
    (hv : v.conformsTo schema s = true) : ∃ n, Number.ofValue v = .ok n := by
  cases s with
  | int t =>
      obtain ⟨w, rfl⟩ := Value.eq_int hv
      exact ⟨_, rfl⟩
  | char =>
      obtain ⟨c, rfl⟩ := Value.eq_char hv
      exact ⟨_, rfl⟩
  | f32 =>
      obtain ⟨x, rfl⟩ := Value.eq_f32 hv
      exact ⟨_, rfl⟩
  | f64 =>
      obtain ⟨x, rfl⟩ := Value.eq_f64 hv
      exact ⟨_, rfl⟩
  | _ => cases hs

theorem Conversion.plain?_delivers {checked : Bool} {s t : Ty} {c : Conversion}
    (hs : s.isScalar = true) (ht : t.isScalar = true) (h : plain? schema checked s t = some c)
    {v : Value} (hv : v.conformsTo schema s = true) : Delivers schema t (c.apply schema v) := by
  unfold plain? at h
  split at h
  case isTrue heq =>
    cases h
    exact heq ▸ hv
  case isFalse =>
    -- records and references are no scalars, so only the numeric conversions are left
    have hnum : (if (Numeric.ofTy? s).isSome then
        (Numeric.ofTy? t).map (Conversion.numeric · checked) else none) = some c := by
      cases s <;> first
        | exact absurd hs Bool.false_ne_true
        | cases t <;> first | exact absurd ht Bool.false_ne_true | exact h
    split at hnum
    case isTrue hsome =>
      obtain ⟨target, htarget, rfl⟩ := Option.map_eq_some_iff.mp hnum
      obtain ⟨n, hn⟩ := Number.ofValue_eq_ok hsome hv
      simp only [Conversion.apply, hn]
      exact Numeric.convert_delivers htarget checked n
    case isFalse => cases hnum

/-- The optional form of a type takes the same values and `null`. -/
theorem Delivers.nullable {t : Ty} {r : Except RuntimeError Value} (h : Delivers schema t r) :
    Delivers schema (.nullable t) r := by
  cases r with
  | ok v =>
      have hv : v.conformsTo schema t = true := h
      simp [Delivers, Value.conformsTo, hv]
  | error e => exact h

theorem Conversion.ofPlain?_delivers {checked : Bool} {s t : Ty} {c : Conversion}
    (hs : s.isScalar = true) (ht : t.isOptionalScalar = true)
    (h : ofPlain? schema checked s t = some c) {v : Value} (hv : v.conformsTo schema s = true) :
    Delivers schema t (c.apply schema v) := by
  have hplain : ∀ t : Ty, t.isScalar = true →
      ofPlain? schema checked s t = plain? schema checked s t := by
    intro t ht
    cases t <;> first | rfl | cases ht
  rcases Ty.isOptionalScalar.cases ht with ht | ⟨u, rfl, hu⟩
  · exact plain?_delivers hs ht (hplain t ht ▸ h) hv
  · have hnull : s.admitsNull = false := by
      cases s <;> first | rfl | cases hs
    rw [ofPlain?, hnull] at h
    exact (plain?_delivers hs hu (hplain u hu ▸ h) hv).nullable

/-- Out of an option: a missing value has no plain counterpart. -/
theorem Conversion.select?_unwrap {checked : Bool} {s t : Ty} (ht : t.isScalar = true) :
    select? schema checked (.nullable s) t = (select? schema checked s t).map .unwrap := by
  cases t <;> first
    | exact absurd ht Bool.false_ne_true
    | simp [select?, Ty.admitsNull, Ty.isNullable, Ty.isReference]

theorem Conversion.unwrap_delivers {inner : Conversion} {t : Ty} {v : Value}
    (h : v.isNull = false → Delivers schema t (inner.apply schema v)) :
    Delivers schema t ((Conversion.unwrap inner).apply schema v) := by
  rw [Conversion.apply]
  cases hn : v.isNull with
  | true => rfl
  | false => exact h hn

theorem Conversion.lifted_delivers {inner : Conversion} {t : Ty} {v : Value}
    (h : v.isNull = false → Delivers schema t (inner.apply schema v)) :
    Delivers schema (.nullable t) ((Conversion.lifted inner).apply schema v) := by
  rw [Conversion.apply]
  cases hn : v.isNull with
  | true => rfl
  | false => exact (h hn).nullable

/-- **Conversions between scalars and optional scalars keep their promise.** -/
theorem Conversion.select?_delivers {checked : Bool} {s t : Ty} {c : Conversion}
    (hs : s.isOptionalScalar = true) (ht : t.isOptionalScalar = true)
    (h : select? schema checked s t = some c) {v : Value} (hv : v.conformsTo schema s = true) :
    Delivers schema t (c.apply schema v) := by
  have hsel : ∀ s t : Ty, s.isScalar = true →
      select? schema checked s t = ofPlain? schema checked s t := by
    intro s t hs
    cases s <;> first | rfl | cases hs
  rcases Ty.isOptionalScalar.cases hs with hs' | ⟨s, rfl, hs'⟩
  · exact ofPlain?_delivers hs' ht (hsel s t hs' ▸ h) hv
  · have hinner : v.isNull = false → v.conformsTo schema s = true := by
      intro hn
      simpa [Value.conformsTo, hn] using hv
    rcases Ty.isOptionalScalar.cases ht with ht' | ⟨t, rfl, ht'⟩
    · rw [select?_unwrap ht'] at h
      obtain ⟨inner, hi, rfl⟩ := Option.map_eq_some_iff.mp h
      exact unwrap_delivers fun hn => ofPlain?_delivers hs' ht (hsel s t hs' ▸ hi) (hinner hn)
    · -- from an option to an option: the missing value is kept, or the types are the same
      by_cases heq : Ty.nullable s = .nullable t
      · obtain rfl : Conversion.identity = c := by simpa [select?, heq] using h
        exact heq ▸ hv
      · have ht'' : t.isOptionalScalar = true := by
          cases t <;> first | rfl | cases ht'
        rw [select?, if_neg heq] at h
        obtain ⟨inner, hi, rfl⟩ := Option.map_eq_some_iff.mp h
        exact lifted_delivers fun hn => ofPlain?_delivers hs' ht'' (hsel s t hs' ▸ hi) (hinner hn)

end Operators

/-! ## Trees -/

/-- The operators with two operands that are not decided by the left one alone. -/
def Kind.isOperator : Kind → Bool
  | .andAlso | .orElse | .arrayIndex | .coalesce => false
  | kind => kind.isBinary

/-- A tree without methods over scalars, strings and functions, whose operands fit. `τ` gives the
type of every parameter by its number. -/
inductive Node.Core (schema : Schema) (τ : Nat → Ty) : Tree → Prop
  /-- A constant of a function type can only be missing. -/
  | constant {id : Nat} {v : Value} {ty : Ty} (core : ty.isCore = true)
      (conforms : v.conformsTo schema ty = true)
      (missing : ty.isFunction = true → v.isNull = true) :
      Core schema τ (.constant id v ty)
  | parameter {id : Nat} {p : Parameter} (core : p.ty.isCore = true) (ty : p.ty = τ p.id) :
      Core schema τ (.parameter id p)
  | assign {id : Nat} {p : Parameter} {x : Tree} (core : p.ty.isCore = true) (ty : p.ty = τ p.id)
      (value : Core schema τ x) (same : x.ty = p.ty) : Core schema τ (.assign id p x)
  | block {id : Nat} {items : List Tree} (all : ∀ x ∈ items, Core schema τ x) :
      Core schema τ (.block id items)
  | condition {id : Nat} {t a b : Tree} (test : Core schema τ t) (bool : t.ty = .bool)
      (ifTrue : Core schema τ a) (ifFalse : Core schema τ b) (same : a.ty = b.ty) :
      Core schema τ (.condition id t a b)
  | lambda {id : Nat} {l : Lambda Value}
      (params : ∀ p ∈ l.params, p.ty.isCore = true ∧ p.ty = τ p.id)
      (body : Core schema τ l.body) : Core schema τ (.ofLambda id l)
  | invoke {id : Nat} {x : Tree} {args : List Tree} {ret : Ty} (callee : Core schema τ x)
      (all : ∀ y ∈ args, Core schema τ y) (fits : x.ty = .function (args.map (·.ty)) ret) :
      Core schema τ (.invoke id x args)
  | unary {id : Nat} {kind : Kind} {x : Tree}
      (operator : kind = .negate ∨ kind = .negateChecked ∨ kind = .unaryPlus ∨ kind = .not)
      (operand : Core schema τ x) : Core schema τ (.unary id kind x)
  | logical {id : Nat} {kind : Kind} {l r : Tree} (operator : kind = .andAlso ∨ kind = .orElse)
      (left : Core schema τ l) (right : Core schema τ r) (leftBool : l.ty.nonNullable = .bool)
      (rightBool : r.ty.nonNullable = .bool) : Core schema τ (.binary id kind l r)
  | binary {id : Nat} {kind : Kind} {l r : Tree} (operator : kind.isOperator = true)
      (left : Core schema τ l) (right : Core schema τ r)
      (fits : r.ty.nonNullable = kind.rightType l.ty.nonNullable) :
      Core schema τ (.binary id kind l r)
  | binaryLiftedToNull {id : Nat} {kind : Kind} {l r : Tree} (operator : kind.isOperator = true)
      (left : Core schema τ l) (right : Core schema τ r)
      (fits : r.ty.nonNullable = kind.rightType l.ty.nonNullable) :
      Core schema τ (.binaryLiftedToNull id kind l r)
  | coalesce {id : Nat} {l r : Tree} (left : Core schema τ l) (right : Core schema τ r)
      (fits : r.ty = l.ty ∨ r.ty = l.ty.nonNullable) : Core schema τ (.coalesce id l r)
  | convert {id : Nat} {x : Tree} {ty : Ty} (operand : Core schema τ x)
      (source : x.ty.isOptionalScalar = true) (target : ty.isOptionalScalar = true) :
      Core schema τ (.convert id x ty)
  | convertChecked {id : Nat} {x : Tree} {ty : Ty} (operand : Core schema τ x)
      (source : x.ty.isOptionalScalar = true) (target : ty.isOptionalScalar = true) :
      Core schema τ (.convertChecked id x ty)
  | typeIs {id : Nat} {x : Tree} {ty : Ty} (operand : Core schema τ x) :
      Core schema τ (.typeIs id x ty)
  | typeAs {id : Nat} {x : Tree} {ty : Ty} (operand : Core schema τ x)
      (target : ty = .string ∨ ∃ t, ty = .nullable t ∧ t.isScalar = true) :
      Core schema τ (.typeAs id x ty)

/-- A lambda whose parameters and body are as in a core tree. -/
structure Lambda.Core (schema : Schema) (τ : Nat → Ty) (l : Lambda Value) : Prop where
  params : ∀ p ∈ l.params, p.ty.isCore = true ∧ p.ty = τ p.id
  body : l.body.Core schema τ

end ExprTree
