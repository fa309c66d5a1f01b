import Mathlib.Algebra.Order.Ring.Abs
import ExprTree.Proofs.Operands

set_option autoImplicit false

/-! # Division with remainder

The quotient and the remainder of two words are computed by two operators. Both fail on the same
operands: on a divisor that is zero, and on the least signed number divided by `-1`, whose quotient
is out of range. Elsewhere the quotient is rounded toward zero, and the two results fit together
(`eval_division_with_remainder`).
-/

namespace ExprTree

/-! ## Words -/

/-- A quotient leaves a symmetric range at one place only. -/
theorem tdiv_mem_range_iff {a b bound : Int} (ha : -bound ≤ a ∧ a < bound) (hb : b ≠ 0) :
    (-bound ≤ a.tdiv b ∧ a.tdiv b < bound) ↔ ¬ (a = -bound ∧ b = -1) := by
  rcases eq_or_ne b (-1) with rfl | hneg
  · have hq : a.tdiv (-1) = -a := by rw [Int.tdiv_neg, Int.tdiv_one]
    rw [hq]
    omega
  simp only [hneg, and_false, not_false_eq_true, iff_true]
  rcases eq_or_ne b 1 with rfl | hone
  · rw [Int.tdiv_one]
    exact ha
  · -- any other divisor at least halves the number
    have hq : (a.tdiv b).natAbs = a.natAbs / b.natAbs := Int.natAbs_tdiv a b
    have hhalf : a.natAbs / b.natAbs ≤ a.natAbs / 2 := Nat.div_le_div_left (by omega) (by decide)
    omega

theorem abs_tmod_lt {a b : Int} (hb : b ≠ 0) : |a.tmod b| < |b| := by
  rw [Int.abs_eq_natAbs, Int.abs_eq_natAbs, Int.natAbs_tmod]
  exact Int.ofNat_lt.mpr (Nat.mod_lt _ (Int.natAbs_pos.mpr hb))

theorem tmod_eq_zero_or_sign (a b : Int) : a.tmod b = 0 ∨ (a.tmod b).sign = a.sign := by
  rw [← Int.sign_eq_zero_iff_zero, Int.sign_tmod]
  split_ifs
  · exact .inl rfl
  · exact .inr rfl

namespace Word

variable {t : IntType}

/-- The dividend is the least signed number, and the divisor is `-1`. -/
def QuotientOverflows (l r : Word t) : Prop :=
  t.signed = true ∧ l.toInt = t.minValue ∧ r.toInt = -1

instance (l r : Word t) : Decidable (l.QuotientOverflows r) := inferInstanceAs (Decidable (_ ∧ _))

variable {l r : Word t}

theorem inRange_tdiv_iff (hr : r.toInt ≠ 0) :
    t.InRange (l.toInt.tdiv r.toInt) ↔ ¬ l.QuotientOverflows r := by
  have hl := l.toInt_inRange
  cases hs : t.signed with
  | true =>
      have hmin : t.minValue = -2 ^ (t.width - 1) := by simp [IntType.minValue, hs]
      rw [IntType.inRange_signed hs] at hl ⊢
      rw [tdiv_mem_range_iff hl hr, QuotientOverflows, hmin]
      simp only [hs, true_and]
  | false =>
      have hrange := r.toInt_inRange
      rw [IntType.inRange_unsigned hs] at hl hrange ⊢
      have hnonneg := Int.tdiv_nonneg hl.1 hrange.1
      have hle := Int.tdiv_le_self r.toInt hl.1
      simp only [QuotientOverflows, hs, Bool.false_eq_true, false_and, not_false_eq_true, iff_true]
      omega

/-- A remainder lies between zero and the dividend. -/
theorem inRange_tmod (l r : Word t) : t.InRange (l.toInt.tmod r.toInt) := by
  have hzero : t.InRange 0 := by cases t <;> decide
  have hl := l.toInt_inRange
  have habs : (l.toInt.tmod r.toInt).natAbs ≤ l.toInt.natAbs := by
    rw [Int.natAbs_tmod]
    exact Nat.mod_le _ _
  rw [IntType.InRange] at hzero hl ⊢
  rcases le_total 0 l.toInt with hpos | hneg
  · have hnonneg := Int.tmod_nonneg r.toInt hpos
    omega
  · have hnonneg := Int.tmod_nonneg r.toInt (Int.neg_nonneg_of_nonpos hneg)
    rw [Int.neg_tmod] at hnonneg
    omega

theorem divide_eq (l r : Word t) : l.divide r =
    if r.toInt = 0 then .error .divideByZero
    else if l.QuotientOverflows r then .error .overflow
    else .ok (.ofInt t (l.toInt.tdiv r.toInt)) := by
  by_cases hr : r.toInt = 0
  · rw [divide, if_pos hr, if_pos hr]
  rw [divide, if_neg hr, if_neg hr, ofInt?]
  by_cases hoverflows : l.QuotientOverflows r
  · rw [if_neg fun hrange => (inRange_tdiv_iff hr).mp hrange hoverflows, if_pos hoverflows]
  · rw [if_pos ((inRange_tdiv_iff hr).mpr hoverflows), if_neg hoverflows]

theorem quotientOverflows_iff : l.QuotientOverflows r ↔ l.toInt = t.minValue ∧ r.toInt = -1 := by
  refine ⟨And.right, fun h => ⟨?_, h⟩⟩
  -- no unsigned number is negative
  by_contra hs
  have hrange := (IntType.inRange_unsigned (Bool.not_eq_true _ ▸ hs)).mp r.toInt_inRange
  omega

theorem modulo_eq (l r : Word t) : l.modulo r =
    if r.toInt = 0 then .error .divideByZero
    else if l.QuotientOverflows r then .error .overflow
    else .ok (.ofInt t (l.toInt.tmod r.toInt)) := by
  simp only [modulo, quotientOverflows_iff]

/-- **Quotient and remainder fail together**, each by its own tests, and with the same error. -/
theorem modulo_eq_error_iff {err : RuntimeError} :
    l.modulo r = .error err ↔ l.divide r = .error err := by
  rw [modulo_eq, divide_eq]
  split_ifs <;> simp

end Word

/-- The two results of a division. -/
inductive DivisionPart
  | quotient
  | remainder

namespace DivisionPart

variable {t : IntType}

/-- The kind of the nodes with this result. -/
def kind : DivisionPart → Kind
  | .quotient => .divide
  | .remainder => .modulo

/-- The operator with this result. -/
def binaryOp (t : IntType) : DivisionPart → BinaryOp
  | .quotient => .divide t
  | .remainder => .modulo t

/-- The result on numbers. -/
def exact : DivisionPart → Int → Int → Int
  | .quotient => Int.tdiv
  | .remainder => Int.tmod

/-- The outcome on words: both parts fail where the quotient does. -/
def outcome (part : DivisionPart) (l r : Word t) : Except RuntimeError Value :=
  if r.toInt = 0 then .error .divideByZero
  else if l.QuotientOverflows r then .error .overflow
  else .ok (.ofInt t (part.exact l.toInt r.toInt))

theorem apply_binaryOp (heap : Heap) (part : DivisionPart) (l r : Word t) :
    (part.binaryOp t).apply heap (.int t l) (.int t r) = some (part.outcome l r) := by
  cases part with
  | quotient =>
      simp only [binaryOp, BinaryOp.apply, Value.asWord_int, bind, Except.bind, Word.divide_eq,
        outcome, exact]
      split_ifs <;> rfl
  | remainder =>
      simp only [binaryOp, BinaryOp.apply, Value.asWord_int, bind, Except.bind, Word.modulo_eq,
        outcome, exact]
      split_ifs <;> rfl

/-- Elsewhere the outcome is exact. -/
theorem exists_outcome (part : DivisionPart) {l r : Word t} (hr : r.toInt ≠ 0)
    (h : ¬ l.QuotientOverflows r) :
    ∃ n : Word t, part.outcome l r = .ok (.int t n) ∧ n.toInt = part.exact l.toInt r.toInt := by
  refine ⟨.ofInt t (part.exact l.toInt r.toInt), ?_, Word.toInt_ofInt ?_⟩
  · rw [outcome, if_neg hr, if_neg h]
    rfl
  · cases part with
    | quotient => exact (Word.inRange_tdiv_iff hr).mpr h
    | remainder => exact Word.inRange_tmod l r

end DivisionPart

/-! ## Evaluations -/

section Evaluations

variable {e : Environment} {t : IntType} {params : List Parameter} {args : List Value}
  {x y : Operand} {a b : Bool}

namespace DivisionPart

variable (part : DivisionPart) (h : Operand.Given e.schema params args [x, y])
  (hx : x.ty = t.operandTy a) (hy : y.ty = t.operandTy b)
  (i j k : Nat) (name : Option String) (w : World)

include h hx hy

/-- Evaluating a division. The operator is lifted if an operand is optional. -/
theorem eval_eq :
    e.eval (.ofLambda i (.mk j name params (.binary k part.kind x.node y.node))) args w
      = (((part.binaryOp t).applyLifted (if a || b then some .null else none) w.heap
          (x.value (argumentOf params args)) (y.value (argumentOf params args))).report, w) := by
  cases part <;> exact h.eval_integers hx hy rfl rfl rfl i j k name w

theorem eval_missing
    (hmissing : x.value (argumentOf params args) = .null ∨
      y.value (argumentOf params args) = .null) :
    e.eval (.ofLambda i (.mk j name params (.binary k part.kind x.node y.node))) args w
      = (.ok .null, w) := by
  rcases h.missing_or_words hx hy with ⟨-, hoptional⟩ | ⟨l, r, hl, hr⟩
  · rw [part.eval_eq h hx hy, hoptional, if_pos rfl, BinaryOp.applyLifted_of_null hmissing]
    rfl
  · rw [hl, hr] at hmissing
    rcases hmissing with hnull | hnull <;> cases hnull

theorem eval_words {l r : Word t} (hl : x.value (argumentOf params args) = .int t l)
    (hr : y.value (argumentOf params args) = .int t r) :
    e.eval (.ofLambda i (.mk j name params (.binary k part.kind x.node y.node))) args w
      = (Outcome.report (.ofExcept (part.outcome l r)), w) := by
  rw [part.eval_eq h hx hy, hl, hr, BinaryOp.applyLifted_of_isNull rfl, apply_binaryOp]
  rfl

theorem eval_eq_null_iff :
    e.eval (.ofLambda i (.mk j name params (.binary k part.kind x.node y.node))) args w
        = (.ok .null, w)
      ↔ x.value (argumentOf params args) = .null ∨ y.value (argumentOf params args) = .null := by
  refine ⟨fun heval => ?_, part.eval_missing h hx hy i j k name w⟩
  rcases h.missing_or_words hx hy with ⟨hmissing, -⟩ | ⟨l, r, hl, hr⟩
  · exact hmissing
  · rw [part.eval_words h hx hy i j k name w hl hr, outcome] at heval
    split_ifs at heval <;> cases heval

theorem eval_eq_error_iff {l r : Word t} (hl : x.value (argumentOf params args) = .int t l)
    (hr : y.value (argumentOf params args) = .int t r) {err : Stop Error} {w' : World} :
    e.eval (.ofLambda i (.mk j name params (.binary k part.kind x.node y.node))) args w
        = (.error err, w')
      ↔ w = w' ∧ (r.toInt = 0 ∧ err = .raised (.runtime .divideByZero) ∨
          l.QuotientOverflows r ∧ err = .raised (.runtime .overflow)) := by
  have hdisjoint : l.QuotientOverflows r → r.toInt ≠ 0 := by
    rintro ⟨-, -, hneg⟩
    omega
  rw [part.eval_words h hx hy i j k name w hl hr, outcome]
  split_ifs with hzero hoverflows
  · have hfits : ¬ l.QuotientOverflows r := fun hoverflows => hdisjoint hoverflows hzero
    simp [hzero, hfits, Outcome.ofExcept, Outcome.report, Except.mapError, Stop.map, and_comm,
      eq_comm]
  · simp [hzero, hoverflows, Outcome.ofExcept, Outcome.report, Except.mapError, Stop.map, and_comm,
      eq_comm]
  · simp [hzero, hoverflows, Outcome.ofExcept, Outcome.report, Except.mapError]

/-- Only the values of the operands matter. -/
theorem eval_congr {params' : List Parameter} {args' : List Value} {x' y' : Operand} {a' b' : Bool}
    (h' : Operand.Given e.schema params' args' [x', y']) (hx' : x'.ty = t.operandTy a')
    (hy' : y'.ty = t.operandTy b')
    (hleft : x'.value (argumentOf params' args') = x.value (argumentOf params args))
    (hright : y'.value (argumentOf params' args') = y.value (argumentOf params args)) :
    e.eval (.ofLambda i (.mk j name params' (.binary k part.kind x'.node y'.node))) args' w
      = e.eval (.ofLambda i (.mk j name params (.binary k part.kind x.node y.node))) args w := by
  rcases h.missing_or_words hx hy with ⟨hmissing, -⟩ | ⟨l, r, hl, hr⟩
  · rw [part.eval_missing h hx hy i j k name w hmissing]
    rw [← hleft, ← hright] at hmissing
    exact part.eval_missing h' hx' hy' i j k name w hmissing
  · rw [part.eval_words h hx hy i j k name w hl hr]
    exact part.eval_words h' hx' hy' i j k name w (hleft.trans hl) (hright.trans hr)

end DivisionPart

/-- **Quotient and remainder fit together.** Dividing and taking the remainder of operands of type
`t`, or of its optional form, fail alike. Both results are missing exactly if an operand is. Else
the division fails if the divisor is zero, or if the quotient of the least signed number by `-1`
overflows; and otherwise the two results are those of exact division, rounded toward zero. It does
not matter which of the operands have the optional type. -/
theorem eval_division_with_remainder (h : Operand.Given e.schema params args [x, y])
    (hx : x.ty = t.operandTy a) (hy : y.ty = t.operandTy b) (i j k : Nat) (name : Option String)
    (w : World) :
    let eval (kind : Kind) (params : List Parameter) (args : List Value) (x y : Operand) :=
      e.eval (.ofLambda i (.mk j name params (.binary k kind x.node y.node))) args w
    let quotient := eval .divide params args x y
    let remainder := eval .modulo params args x y
    let left := x.value (argumentOf params args)
    let right := y.value (argumentOf params args)
    (∀ err w', quotient = (.error err, w') ↔ remainder = (.error err, w')) ∧
      (quotient = (.ok .null, w) ↔ left = .null ∨ right = .null) ∧
      (remainder = (.ok .null, w) ↔ left = .null ∨ right = .null) ∧
      (∀ params' args' x' y' a' b', Operand.Given e.schema params' args' [x', y'] →
        x'.ty = t.operandTy a' → y'.ty = t.operandTy b' →
        x'.value (argumentOf params' args') = left → y'.value (argumentOf params' args') = right →
        eval .divide params' args' x' y' = quotient ∧
          eval .modulo params' args' x' y' = remainder) ∧
      (¬ (left = .null ∨ right = .null) → ∃ l r : Word t, left = .int t l ∧ right = .int t r ∧
        (quotient = (.error (.raised (.runtime .divideByZero)), w) ↔ r.toInt = 0) ∧
        (quotient = (.error (.raised (.runtime .overflow)), w) ↔ l.QuotientOverflows r) ∧
        (r.toInt ≠ 0 → ¬ l.QuotientOverflows r → ∃ q m : Word t,
          quotient = (.ok (.int t q), w) ∧ remainder = (.ok (.int t m), w) ∧
          l.toInt = q.toInt * r.toInt + m.toInt ∧ |m.toInt| < |r.toInt| ∧
          (m.toInt = 0 ∨ m.toInt.sign = l.toInt.sign))) := by
  intro eval quotient remainder left right
  refine ⟨fun err w' => ?_, DivisionPart.quotient.eval_eq_null_iff h hx hy i j k name w,
    DivisionPart.remainder.eval_eq_null_iff h hx hy i j k name w, ?_, fun hwords => ?_⟩
  · rcases h.missing_or_words hx hy with ⟨hmissing, -⟩ | ⟨l, r, hl, hr⟩
    · have hquotient : quotient = (.ok .null, w) :=
        DivisionPart.quotient.eval_missing h hx hy i j k name w hmissing
      have hremainder : remainder = (.ok .null, w) :=
        DivisionPart.remainder.eval_missing h hx hy i j k name w hmissing
      rw [hquotient, hremainder]
    · exact (DivisionPart.quotient.eval_eq_error_iff h hx hy i j k name w hl hr).trans
        (DivisionPart.remainder.eval_eq_error_iff h hx hy i j k name w hl hr).symm
  · intro params' args' x' y' a' b' h' hx' hy' hleft hright
    exact ⟨DivisionPart.quotient.eval_congr h hx hy i j k name w h' hx' hy' hleft hright,
      DivisionPart.remainder.eval_congr h hx hy i j k name w h' hx' hy' hleft hright⟩
  rcases h.missing_or_words hx hy with ⟨hmissing, -⟩ | ⟨l, r, hl, hr⟩
  · exact absurd hmissing hwords
  have herror {err : Stop Error} {w' : World} : quotient = (.error err, w') ↔ _ :=
    DivisionPart.quotient.eval_eq_error_iff h hx hy i j k name w hl hr
  refine ⟨l, r, hl, hr, by simp [herror], by simp [herror], fun hzero hfits => ?_⟩
  obtain ⟨q, hq, hqn⟩ := DivisionPart.quotient.exists_outcome hzero hfits
  obtain ⟨m, hm, hmn⟩ := DivisionPart.remainder.exists_outcome hzero hfits
  have hquotient := DivisionPart.quotient.eval_words h hx hy i j k name w hl hr
  have hremainder := DivisionPart.remainder.eval_words h hx hy i j k name w hl hr
  rw [hq] at hquotient
  rw [hm] at hremainder
  refine ⟨q, m, hquotient, hremainder, ?_⟩
  rw [hqn, hmn]
  exact ⟨(Int.tdiv_mul_add_tmod _ _).symm, abs_tmod_lt hzero, tmod_eq_zero_or_sign _ _⟩

/-- Dividing the `i8` number -7 by 2 gives -3, and -1 remains. The number -128 cannot be divided by
-1, and a missing dividend gives a missing result even where the divisor is zero. -/
theorem eval_division_with_remainder_negative :
    let e : Environment := ⟨.empty, fun _ _ heap _ => .done (.ok .unit) heap, 1000, 0⟩
    let p : Parameter := ⟨0, "p", .nullable (.int .i8)⟩
    let q : Parameter := ⟨1, "q", .int .i8⟩
    let eval (kind : Kind) (l r : Value) := e.eval (.ofLambda 5 (.mk 4 none [p, q]
      (.binary 3 kind (.parameter 1 p) (.parameter 2 q)))) [l, r] {}
    eval .divide (.ofInt .i8 (-7)) (.ofInt .i8 2) = (.ok (.ofInt .i8 (-3)), {}) ∧
      eval .modulo (.ofInt .i8 (-7)) (.ofInt .i8 2) = (.ok (.ofInt .i8 (-1)), {}) ∧
      eval .divide (.ofInt .i8 (-128)) (.ofInt .i8 (-1))
        = (.error (.raised (.runtime .overflow)), {}) ∧
      eval .modulo (.ofInt .i8 (-128)) (.ofInt .i8 (-1))
        = (.error (.raised (.runtime .overflow)), {}) ∧
      eval .modulo .null (.ofInt .i8 0) = (.ok .null, {}) := by
  intro e p q eval
  have hdivision {l r : Value} (hl : l.conformsTo .empty p.ty = true)
      (hr : r.conformsTo .empty q.ty = true) :=
    eval_division_with_remainder (e := e) (t := .i8) (a := true) (b := false)
      (Operand.given_parameters (by decide) hl hr 1 2) rfl rfl 5 4 3 none {}
  have hwords {l r : Word .i8} : ¬ (Value.int .i8 l = .null ∨ Value.int .i8 r = .null) := by simp
  -- the remainder of -7 is odd, and it has the sign of -7
  obtain ⟨-, -, -, -, hexact⟩ := hdivision (l := .ofInt .i8 (-7)) (r := .ofInt .i8 2) rfl rfl
  obtain ⟨l, r, hl, hr, -, -, hresult⟩ := hexact hwords
  cases hl
  cases hr
  obtain ⟨n, m, hn, hm, hsum, habs, hsign⟩ := hresult (by decide) (by decide)
  rw [Word.toInt_ofInt (by decide), Word.toInt_ofInt (by decide)] at hsum
  rw [Word.toInt_ofInt (by decide), abs_two, abs_lt] at habs
  rw [Word.toInt_ofInt (by decide)] at hsign
  have hremainder : m.toInt = -1 := by
    rcases hsign with hzero | hneg
    · omega
    · have hlt : m.toInt < 0 := Int.sign_eq_neg_one_iff_neg.mp hneg
      omega
  have hquotient : n.toInt = -3 := by omega
  obtain rfl : .ofInt .i8 (-3) = n := by rw [← hquotient, Word.ofInt_toInt]
  obtain rfl : .ofInt .i8 (-1) = m := by rw [← hremainder, Word.ofInt_toInt]
  obtain ⟨hsame, -, -, -, hfails⟩ :=
    hdivision (l := .ofInt .i8 (-128)) (r := .ofInt .i8 (-1)) rfl rfl
  obtain ⟨l, r, hl, hr, -, hoverflow, -⟩ := hfails hwords
  cases hl
  cases hr
  have hdivide := hoverflow.mpr (by decide)
  obtain ⟨-, -, hnull, -⟩ := hdivision (l := .null) (r := .ofInt .i8 0) rfl rfl
  exact ⟨hn, hm, hdivide, (hsame _ _).mp hdivide, hnull.mpr (.inl rfl)⟩

end Evaluations

end ExprTree
