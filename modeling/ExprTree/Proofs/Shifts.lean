import Mathlib.Tactic.Positivity
import ExprTree.Proofs.Operands

set_option autoImplicit false

/-! # Shifts

A shift moves the bits of a word by the distance that an `i32` count stands for: the residue of the
count modulo the width of the word, so that negative and oversized counts shift as well. On the
number of the word, a shift to the left is a multiplication by a power of two, modulo `2 ^ width`,
and a shift to the right is a division rounded down, whether or not the word has a sign
(`eval_shifts`).
-/

namespace ExprTree

/-! ## Words -/

namespace Word

variable {t : IntType}

/-- The distance is the residue of the count as a signed number. -/
theorem natCast_shiftDistance (t : IntType) (count : Word .i32) :
    (shiftDistance t count : Int) = count.toInt % t.width := by
  -- the width divides the modulus by which signed and unsigned counts differ
  have hdvd : (t.width : Int) ∣ (2 ^ 32 : Nat) := by cases t <;> decide
  have hcount : count.toInt = (count.bits.toNat : Int).bmod (2 ^ 32) :=
    BitVec.toInt_eq_toNat_bmod count.bits
  calc (shiftDistance t count : Int)
      = count.bits.toNat % t.width := Int.natCast_emod _ _
    _ = count.toInt % (2 ^ 32 : Nat) % t.width := by
        rw [hcount, Int.bmod_emod, Int.emod_emod_of_dvd _ hdvd]
    _ = count.toInt % t.width := Int.emod_emod_of_dvd _ hdvd

theorem shiftDistance_lt (t : IntType) (count : Word .i32) : shiftDistance t count < t.width :=
  Nat.mod_lt _ t.width_pos

theorem shiftLeft_eq_ofInt (a : Word t) (count : Word .i32) :
    a.shiftLeft count = ofInt t (a.toInt * 2 ^ shiftDistance t count) := by
  have hpow : BitVec.ofInt t.width (2 ^ shiftDistance t count)
      = BitVec.twoPow t.width (shiftDistance t count) := by
    apply BitVec.eq_of_toNat_eq
    rw [BitVec.toNat_ofInt, BitVec.toNat_twoPow]
    norm_cast
  calc a.shiftLeft count
      = (ofInt t a.toInt).shiftLeft count := by rw [a.ofInt_toInt]
    _ = ⟨BitVec.ofInt t.width a.toInt * BitVec.twoPow t.width (shiftDistance t count)⟩ := by
        rw [shiftLeft, ofInt, BitVec.shiftLeft_eq_mul_twoPow]
    _ = ofInt t (a.toInt * 2 ^ shiftDistance t count) := by rw [ofInt, BitVec.ofInt_mul, hpow]

theorem toInt_shiftRight (a : Word t) (count : Word .i32) :
    (a.shiftRight count).toInt = a.toInt.fdiv (2 ^ shiftDistance t count) := by
  rw [Int.fdiv_eq_ediv_of_nonneg _ (by positivity)]
  cases hs : t.signed with
  | true =>
      simp only [shiftRight, toInt, hs, ↓reduceIte, BitVec.toInt_sshiftRight,
        Int.shiftRight_eq_div_pow]
      norm_cast
  | false =>
      simp only [shiftRight, toInt, hs, Bool.false_eq_true, ↓reduceIte, BitVec.toNat_ushiftRight,
        Nat.shiftRight_eq_div_pow]
      norm_cast

end Word

/-! ## Evaluations -/

theorem BinaryOp.apply_shiftLeft {t : IntType} (heap : Heap) (a : Word t) (count : Word .i32) :
    (BinaryOp.shiftLeft t).apply heap (.int t a) (.int .i32 count)
      = some (.ok (.int t (a.shiftLeft count))) := by
  simp only [BinaryOp.apply, Value.asWord_int]
  rfl

theorem BinaryOp.apply_shiftRight {t : IntType} (heap : Heap) (a : Word t) (count : Word .i32) :
    (BinaryOp.shiftRight t).apply heap (.int t a) (.int .i32 count)
      = some (.ok (.int t (a.shiftRight count))) := by
  simp only [BinaryOp.apply, Value.asWord_int]
  rfl

section Evaluations

variable {e : Environment} {t : IntType} {params : List Parameter} {args : List Value}
  {x y : Operand} {a b : Bool}

/-- **Shifts are multiplications and floor divisions by powers of two.** Shifting an operand of type
`t`, or of its optional form, never fails. Both results are missing if an operand is, which takes an
optional type. Else, with the residue `d` of the count modulo the width, the shift to the left gives
the word congruent to the product with `2 ^ d`, and the shift to the right gives the exact quotient
by `2 ^ d`, rounded down. -/
theorem eval_shifts (h : Operand.Given e.schema params args [x, y]) (hx : x.ty = t.operandTy a)
    (hy : y.ty = IntType.i32.operandTy b) (i j k : Nat) (name : Option String) (w : World) :
    let eval (kind : Kind) :=
      e.eval (.ofLambda i (.mk j name params (.binary k kind x.node y.node))) args w
    let left := x.value (argumentOf params args)
    let right := y.value (argumentOf params args)
    (((left = .null ∨ right = .null) ∧ (a || b) = true) ∧
        eval .leftShift = (.ok .null, w) ∧ eval .rightShift = (.ok .null, w)) ∨
      ∃ (l : Word t) (count : Word .i32) (d : Nat) (p q : Word t),
        left = .int t l ∧ right = .int .i32 count ∧ d < t.width ∧ d = count.toInt % t.width ∧
        eval .leftShift = (.ok (.int t p), w) ∧ eval .rightShift = (.ok (.int t q), w) ∧
        p.toInt ≡ l.toInt * 2 ^ d [ZMOD 2 ^ t.width] ∧ q.toInt = l.toInt.fdiv (2 ^ d) := by
  intro eval left right
  have hselectLeft : BinaryOp.select? .leftShift (.int t) = some (.shiftLeft t) := rfl
  have hselectRight : BinaryOp.select? .rightShift (.int t) = some (.shiftRight t) := rfl
  have hleft : eval .leftShift = _ := h.eval_integers hx hy rfl rfl hselectLeft i j k name w
  have hright : eval .rightShift = _ := h.eval_integers hx hy rfl rfl hselectRight i j k name w
  rcases h.missing_or_words hx hy with hmissing | ⟨l, count, hl, hcount⟩
  · rw [hmissing.2, if_pos rfl, BinaryOp.applyLifted_of_null hmissing.1] at hleft hright
    exact .inl ⟨hmissing, hleft, hright⟩
  · rw [hl, hcount, BinaryOp.applyLifted_of_isNull rfl, BinaryOp.apply_shiftLeft] at hleft
    rw [hl, hcount, BinaryOp.applyLifted_of_isNull rfl, BinaryOp.apply_shiftRight] at hright
    have hproduct := Word.toInt_modEq_iff.mpr (l.shiftLeft_eq_ofInt count)
    exact .inr ⟨l, count, Word.shiftDistance t count, _, _, hl, hcount,
      Word.shiftDistance_lt t count, Word.natCast_shiftDistance t count, hleft, hright, hproduct,
      l.toInt_shiftRight count⟩

/-- The count -1 shifts an `i8` number by 7, and 9 shifts it by 1. By 7 to the left, only the low
bit is kept, as the sign, and -100 has none; to the right, only its sign is left. Twice -100 is 56
modulo 256. -/
theorem eval_shifts_oversized :
    let e : Environment := ⟨.empty, fun _ _ heap _ => .done (.ok .unit) heap, 1000, 0⟩
    let p : Parameter := ⟨0, "p", .int .i8⟩
    let q : Parameter := ⟨1, "q", .int .i32⟩
    let eval (kind : Kind) (l count : Int) := e.eval (.ofLambda 5 (.mk 4 none [p, q]
      (.binary 3 kind (.parameter 1 p) (.parameter 2 q)))) [.ofInt .i8 l, .ofInt .i32 count] {}
    eval .leftShift (-100) (-1) = (.ok (.ofInt .i8 0), {}) ∧
      eval .rightShift (-100) (-1) = (.ok (.ofInt .i8 (-1)), {}) ∧
      eval .leftShift (-100) 9 = (.ok (.ofInt .i8 56), {}) ∧
      eval .rightShift (-100) 9 = (.ok (.ofInt .i8 (-50)), {}) := by
  intro e p q eval
  have hshifts {l c m n : Int} {d : Nat} (hl : IntType.i8.InRange l)
      (hc : IntType.i32.InRange c) (hd : c % 8 = d) (hm : l * 2 ^ d ≡ m [ZMOD 2 ^ 8])
      (hn : l.fdiv (2 ^ d) = n) :
      eval .leftShift l c = (.ok (.ofInt .i8 m), {}) ∧
        eval .rightShift l c = (.ok (.ofInt .i8 n), {}) := by
    rcases eval_shifts (e := e) (t := .i8) (a := false) (b := false)
      (Operand.given_parameters (p := p) (q := q) (v := .ofInt .i8 l) (u := .ofInt .i32 c)
        (by decide) rfl rfl 1 2) rfl rfl 5 4 3 none {} with
      ⟨⟨-, hoptional⟩, -⟩ | ⟨_, _, d', p', q', hl', hcount', -, hd', hleft, hright, hp, hq⟩
    · cases hoptional
    cases hl'
    cases hcount'
    rw [Word.toInt_ofInt hc] at hd'
    obtain rfl : d = d' := Int.ofNat_inj.mp (hd.symm.trans hd'.symm)
    rw [Word.toInt_ofInt hl] at hp hq
    obtain rfl : p' = .ofInt .i8 m := Word.toInt_modEq_iff.mp (hp.trans hm)
    obtain rfl : .ofInt .i8 n = q' := by rw [← hn, ← hq, Word.ofInt_toInt]
    exact ⟨hleft, hright⟩
  obtain ⟨hleft, hright⟩ := hshifts (l := -100) (c := -1) (m := 0) (n := -1) (d := 7)
    (by decide) (by decide) (by decide) (by decide) (by decide)
  exact ⟨hleft, hright, hshifts (d := 1) (by decide) (by decide) (by decide) (by decide)
    (by decide)⟩

end Evaluations

end ExprTree
