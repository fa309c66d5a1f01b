import Mathlib.Data.Int.ModEq
import ExprTree.Operator

set_option autoImplicit false

/-! # Words and the numbers they stand for

A word of the integer type `t` stands for a number in the range of `t`, and for every number there
is exactly one word congruent to it modulo `2 ^ t.width` (`Word.toInt_modEq_iff`). The wrapping
operations are the operations on numbers followed by this reduction; the checked operations give
the number itself where it is in range, and fail everywhere else.
-/

namespace ExprTree

namespace IntType

theorem width_pos (t : IntType) : 0 < t.width := by
  cases t <;> decide

theorem inRange_signed {t : IntType} (h : t.signed = true) {n : Int} :
    t.InRange n ↔ -2 ^ (t.width - 1) ≤ n ∧ n < 2 ^ (t.width - 1) := by
  simp only [InRange, minValue, maxValue, h, ↓reduceIte, Nat.pow_eq, Nat.cast_pow, Nat.cast_ofNat]
  omega

theorem inRange_unsigned {t : IntType} (h : t.signed = false) {n : Int} :
    t.InRange n ↔ 0 ≤ n ∧ n < 2 ^ t.width := by
  simp only [InRange, minValue, maxValue, h, Bool.false_eq_true, ↓reduceIte, Nat.pow_eq,
    Nat.cast_pow, Nat.cast_ofNat]
  omega

end IntType

namespace Word

variable {t : IntType}

/-! ## Reading and writing numbers -/

theorem toInt_inRange (w : Word t) : t.InRange w.toInt := by
  cases hs : t.signed with
  | true =>
      rw [IntType.inRange_signed hs, toInt, if_pos hs]
      exact ⟨BitVec.le_toInt _, BitVec.toInt_lt⟩
  | false =>
      rw [IntType.inRange_unsigned hs, toInt, if_neg (by simp [hs])]
      have hlt := w.bits.isLt
      exact ⟨Int.natCast_nonneg _, by exact_mod_cast hlt⟩

/-- A word is determined by its number. -/
theorem ofInt_toInt (w : Word t) : ofInt t w.toInt = w := by
  cases hs : t.signed with
  | true => simp only [ofInt, toInt, hs, ↓reduceIte, BitVec.ofInt_toInt]
  | false =>
      simp only [ofInt, toInt, hs, Bool.false_eq_true, ↓reduceIte, BitVec.ofInt_natCast,
        BitVec.ofNat_toNat, BitVec.setWidth_eq]

/-- A number in the range is kept. -/
theorem toInt_ofInt {n : Int} (h : t.InRange n) : (ofInt t n).toInt = n := by
  cases hs : t.signed with
  | true =>
      rw [IntType.inRange_signed hs] at h
      rw [toInt, if_pos hs, ofInt, BitVec.toInt_ofInt]
      have hw : (2 : Int) ^ t.width = 2 * 2 ^ (t.width - 1) := by
        rw [← Int.pow_succ', Nat.sub_add_cancel t.width_pos]
      apply Int.bmod_eq_of_le_mul_two <;> push_cast <;> omega
  | false =>
      rw [IntType.inRange_unsigned hs] at h
      rw [toInt, if_neg (by simp [hs]), ofInt, BitVec.toNat_ofInt]
      push_cast
      rw [Int.emod_eq_of_lt h.1 h.2]
      omega

theorem ofInt_eq_ofInt {m n : Int} : ofInt t m = ofInt t n ↔ m ≡ n [ZMOD 2 ^ t.width] := by
  have hpos : (0 : Int) < 2 ^ t.width := Int.pow_pos (by decide)
  rw [ofInt, ofInt, mk.injEq, ← BitVec.toNat_inj, BitVec.toNat_ofInt, BitVec.toNat_ofInt]
  push_cast
  have hm := Int.emod_nonneg m hpos.ne'
  have hn := Int.emod_nonneg n hpos.ne'
  rw [Int.ModEq]
  omega

/-- Every number has exactly one word congruent to it. -/
theorem toInt_modEq_iff {w : Word t} {n : Int} :
    w.toInt ≡ n [ZMOD 2 ^ t.width] ↔ w = ofInt t n := by
  rw [← ofInt_eq_ofInt, ofInt_toInt]

/-! ## Operations -/

theorem wrapping_ofInt (op : ArithOp) (m n : Int) :
    op.wrapping (ofInt t m) (ofInt t n) = ofInt t (op.exact m n) := by
  cases op with
  | add => exact congrArg mk (BitVec.ofInt_add m n).symm
  | sub =>
      refine congrArg mk ?_
      rw [ArithOp.exact, Int.sub_eq_add_neg, BitVec.ofInt_add, BitVec.ofInt_neg]
      exact BitVec.sub_eq_add_neg _ _
  | mul => exact congrArg mk (BitVec.ofInt_mul m n).symm

theorem neg_ofInt (n : Int) : (ofInt t n).neg = ofInt t (-n) := congrArg mk BitVec.ofInt_neg.symm

theorem checked_ofInt (op : ArithOp) {m n : Int} (hm : t.InRange m) (hn : t.InRange n) :
    op.checked (ofInt t m) (ofInt t n)
      = if t.InRange (op.exact m n) then .ok (ofInt t (op.exact m n)) else .error .overflow := by
  rw [ArithOp.checked, toInt_ofInt hm, toInt_ofInt hn, ofInt?]
  split_ifs <;> rfl

theorem checkedNeg_ofInt {n : Int} (hn : t.InRange n) :
    (ofInt t n).checkedNeg = if t.InRange (-n) then .ok (ofInt t (-n)) else .error .overflow := by
  rw [checkedNeg, toInt_ofInt hn, ofInt?]
  split_ifs <;> rfl

end Word

end ExprTree
