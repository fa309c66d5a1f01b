import Mathlib.Data.Option.NAry
import ExprTree.Proofs.Computation
import ExprTree.Proofs.Words

set_option autoImplicit false

/-! # Integer arithmetic

An `IntExpr t` is a tree of additions, subtractions, multiplications, negations and plus signs over
constants and parameters of the integer type `t` or its optional form. It is built with wrapping or
with checked operators (`IntExpr.node`), and it stands for an exact number, unless a leaf is missing
(`IntExpr.number?`). `eval_wrapping_arithmetic` and `eval_checked_arithmetic` say what evaluating
the two trees gives.
-/

namespace ExprTree

/-! ## Expressions -/

/-- The type `t`, or its optional form. -/
def IntType.operandTy (optional : Bool) (t : IntType) : Ty :=
  if optional then .nullable (.int t) else .int t

/-- The kind of the wrapping or of the checked operator. -/
def ArithOp.kind (checked : Bool) : ArithOp → Kind
  | .add => if checked then .addChecked else .add
  | .sub => if checked then .subtractChecked else .subtract
  | .mul => if checked then .multiplyChecked else .multiply

/-- The wrapping or the checked operator. -/
def ArithOp.binaryOp (checked : Bool) (t : IntType) (op : ArithOp) : BinaryOp :=
  if checked then .checked op t else .wrapping op t

/-- The kind of the wrapping or of the checked negation. -/
def Kind.negation (checked : Bool) : Kind := if checked then .negateChecked else .negate

/-- The wrapping or the checked negation. -/
def UnaryOp.negation (checked : Bool) (t : IntType) : UnaryOp :=
  if checked then .negateChecked t else .negate t

/-- An arithmetic expression of type `t`; nodes have the identities that they get in a tree. -/
inductive IntExpr (t : IntType)
  | constant (id : Nat) (optional : Bool) (w : Word t)
  /-- A missing value of the optional type. -/
  | missing (id : Nat)
  | parameter (id : Nat) (optional : Bool) (number : Nat) (name : String)
  | plus (id : Nat) (x : IntExpr t)
  | negate (id : Nat) (x : IntExpr t)
  | binary (id : Nat) (op : ArithOp) (x y : IntExpr t)

namespace IntExpr

variable {t : IntType}

/-- The tree with wrapping or with checked operators. -/
def node (checked : Bool) : IntExpr t → Tree
  | .constant id optional w => Node.constant id (.int t w) (t.operandTy optional)
  | .missing id => Node.null id (t.operandTy true)
  | .parameter id optional number name => Node.parameter id ⟨number, name, t.operandTy optional⟩
  | .plus id x => Node.unary id .unaryPlus (x.node checked)
  | .negate id x => Node.unary id (.negation checked) (x.node checked)
  | .binary id op x y => Node.binary id (op.kind checked) (x.node checked) (y.node checked)

/-- Whether a leaf has the optional type. -/
def isOptional : IntExpr t → Bool
  | .constant _ optional _ | .parameter _ optional _ _ => optional
  | .missing _ => true
  | .plus _ x | .negate _ x => x.isOptional
  | .binary _ _ x y => x.isOptional || y.isOptional

/-- The parameters, in the order of their uses. -/
def parameters : IntExpr t → List Parameter
  | .constant .. | .missing _ => []
  | .parameter _ optional number name => [⟨number, name, t.operandTy optional⟩]
  | .plus _ x | .negate _ x => x.parameters
  | .binary _ _ x y => x.parameters ++ y.parameters

/-- The values of the leaves, where `ρ` gives the values of parameters. -/
def leaves (ρ : Nat → Value) : IntExpr t → List Value
  | .constant _ _ w => [.int t w]
  | .missing _ => [.null]
  | .parameter _ _ number _ => [ρ number]
  | .plus _ x | .negate _ x => x.leaves ρ
  | .binary _ _ x y => x.leaves ρ ++ y.leaves ρ

/-- The expression and the expressions inside it. -/
def subtrees : IntExpr t → List (IntExpr t)
  | .plus id x => .plus id x :: x.subtrees
  | .negate id x => .negate id x :: x.subtrees
  | .binary id op x y => .binary id op x y :: (x.subtrees ++ y.subtrees)
  | x => [x]

end IntExpr

/-- The number an integer stands for. -/
def Value.number? : Value → Option Int
  | .int _ w => some w.toInt
  | _ => none

/-- The exact number an expression stands for, if no leaf is missing. -/
def IntExpr.number? {t : IntType} (ρ : Nat → Value) : IntExpr t → Option Int
  | .constant _ _ w => some w.toInt
  | .missing _ => none
  | .parameter _ _ number _ => (ρ number).number?
  | .plus _ x => x.number? ρ
  | .negate _ x => (x.number? ρ).map (- ·)
  | .binary _ op x y => Option.map₂ op.exact (x.number? ρ) (y.number? ρ)

/-! ## Typing -/

@[simp] theorem IntType.isNullable_operandTy (t : IntType) (optional : Bool) :
    (t.operandTy optional).isNullable = optional := by
  cases optional <;> rfl

/-- The result of an operator is optional as soon as an operand is. -/
theorem ArithOp.binaryType (op : ArithOp) (checked : Bool) (t : IntType) (a b toNull : Bool) :
    Node.binaryType (op.kind checked) (t.operandTy a) (a || b) toNull = t.operandTy (a || b) := by
  cases op <;> cases checked <;> cases a <;> cases b <;> rfl

theorem ArithOp.isRelational_kind (op : ArithOp) (checked : Bool) :
    (op.kind checked).isRelational = false := by
  cases op <;> cases checked <;> rfl

namespace IntExpr

variable {t : IntType} {x : IntExpr t}

/-- The static type of a tree is optional exactly if that of a leaf is. -/
theorem ty_node (checked : Bool) (x : IntExpr t) :
    (x.node checked).ty = t.operandTy x.isOptional := by
  induction x with
  | constant | missing | parameter => rfl
  | plus id x ih => exact ih
  | negate id x ih => cases checked <;> exact ih
  | binary id op x y ihx ihy =>
      show Node.binaryType _ _ (Node.operandsOptional _ _) _ = _
      rw [Node.operandsOptional, ihx, ihy, IntType.isNullable_operandTy,
        IntType.isNullable_operandTy, ArithOp.binaryType, isOptional]

theorem node_plus (checked : Bool) (id : Nat) (x : IntExpr t) :
    (plus id x).node checked = .mk id .unaryPlus (t.operandTy x.isOptional)
      (.unary (x.node checked) none x.isOptional) := by
  simp only [node, Node.unary, ty_node, IntType.isNullable_operandTy]

theorem node_negate (checked : Bool) (id : Nat) (x : IntExpr t) :
    (negate id x).node checked = .mk id (.negation checked) (t.operandTy x.isOptional)
      (.unary (x.node checked) none x.isOptional) := by
  cases checked <;>
    simp only [node, Kind.negation, Bool.false_eq_true, ↓reduceIte, Node.unary, ty_node,
      IntType.isNullable_operandTy]

theorem node_binary (checked : Bool) (id : Nat) (op : ArithOp) (x y : IntExpr t) :
    (binary id op x y).node checked
      = .mk id (op.kind checked) (t.operandTy (x.isOptional || y.isOptional))
          (.binary (x.node checked) (y.node checked) none (x.isOptional || y.isOptional)
            (x.isOptional || y.isOptional) none) := by
  simp only [node, Node.binary, Node.operandsOptional, ty_node, IntType.isNullable_operandTy,
    ArithOp.binaryType, ArithOp.isRelational_kind, Bool.not_false, Bool.and_true]

/-- No parameter is used from inside a lambda or a quote. -/
theorem within_eq_nil {checked : Bool} {o : Occurrence} (ho : o ∈ (x.node checked).occurrences) :
    o.within = [] := by
  induction x with
  | constant | missing => cases ho
  | parameter => rw [List.mem_singleton.mp ho]
  | plus _ _ ih => exact ih ho
  | negate _ _ ih =>
      cases checked <;> exact ih ho
  | binary _ _ _ _ ihx ihy => exact (List.mem_append.mp ho).elim ihx ihy

end IntExpr

/-! ## Operators on numbers -/

/-- The word of a number, or a missing value. -/
def Value.ofNumber? (t : IntType) : Option Int → Value
  | some n => .ofInt t n
  | none => .null

section Operators

variable {t : IntType}

theorem Value.ofNumber?_eq_null {n : Option Int} : Value.ofNumber? t n = .null ↔ n = none := by
  cases n <;> simp [Value.ofNumber?, Value.ofInt]

/-- A value of the optional type may be missing. -/
theorem Value.eq_null_or_int {schema : Schema} {optional : Bool} {v : Value}
    (h : v.conformsTo schema (t.operandTy optional) = true) :
    (v = .null ∧ optional = true) ∨ ∃ w, v = .int t w := by
  cases optional with
  | false => exact .inr (Value.eq_int h)
  | true =>
      rcases Bool.or_eq_true_iff.mp h with hnull | hv
      · exact .inl ⟨Value.eq_null hnull, rfl⟩
      · exact .inr (Value.eq_int hv)

/-- A value of the optional type is the word of its number. -/
theorem Value.ofNumber?_number? {schema : Schema} {optional : Bool} {v : Value}
    (h : v.conformsTo schema (t.operandTy optional) = true) : .ofNumber? t v.number? = v := by
  rcases Value.eq_null_or_int h with ⟨rfl, -⟩ | ⟨w, rfl⟩
  · rfl
  · exact congrArg (Value.int t) w.ofInt_toInt

theorem UnaryOp.applyLifted_plus (lifted : Bool) (v : Value) :
    UnaryOp.plus.applyLifted lifted v = .ok v := by
  unfold UnaryOp.applyLifted
  split
  case isTrue h =>
    rw [Value.eq_null (Bool.and_eq_true_iff.mp h).2]
  case isFalse => rfl

theorem UnaryOp.apply_negate (n : Int) :
    (UnaryOp.negate t).apply (.ofInt t n) = .ok (.ofInt t (-n)) := by
  simp only [UnaryOp.apply, Value.ofInt, Value.asWord_int, ← Word.neg_ofInt]
  rfl

theorem UnaryOp.apply_negateChecked {n : Int} (hn : t.InRange n) :
    (UnaryOp.negateChecked t).apply (.ofInt t n)
      = if t.InRange (-n) then .ok (.ofInt t (-n)) else .error .overflow := by
  simp only [UnaryOp.apply, Value.ofInt, Value.asWord_int, bind, Except.bind,
    Word.checkedNeg_ofInt hn]
  split_ifs <;> rfl

theorem BinaryOp.apply_wrapping (heap : Heap) (op : ArithOp) (m n : Int) :
    (BinaryOp.wrapping op t).apply heap (.ofInt t m) (.ofInt t n)
      = some (.ok (.ofInt t (op.exact m n))) := by
  simp only [BinaryOp.apply, Value.ofInt, Value.asWord_int, ← Word.wrapping_ofInt]
  rfl

theorem BinaryOp.apply_checked (heap : Heap) (op : ArithOp) {m n : Int} (hm : t.InRange m)
    (hn : t.InRange n) :
    (BinaryOp.checked op t).apply heap (.ofInt t m) (.ofInt t n)
      = some (if t.InRange (op.exact m n) then .ok (.ofInt t (op.exact m n))
          else .error .overflow) := by
  simp only [BinaryOp.apply, Value.ofInt, Value.asWord_int, bind, Except.bind,
    Word.checked_ofInt op hm hn]
  split_ifs <;> rfl

/-- A lifted negation passes a missing operand on. -/
theorem UnaryOp.applyLifted_negate {lifted : Bool} {n : Option Int}
    (h : n = none → lifted = true) :
    (UnaryOp.negate t).applyLifted lifted (.ofNumber? t n) = .ok (.ofNumber? t (n.map (- ·))) := by
  cases n with
  | none =>
      rw [h rfl]
      rfl
  | some n =>
      have hplain : (lifted && (Value.ofInt t n).isNull) = false := Bool.and_false lifted
      rw [UnaryOp.applyLifted, Value.ofNumber?, hplain, if_neg Bool.false_ne_true,
        UnaryOp.apply_negate n]
      rfl

/-- A lifted operator passes a missing operand on. -/
theorem BinaryOp.applyLifted_wrapping {lifted : Bool} (heap : Heap) (op : ArithOp)
    {m n : Option Int} (hm : m = none → lifted = true) (hn : n = none → lifted = true) :
    (BinaryOp.wrapping op t).applyLifted (if lifted then some .null else none) heap
      (.ofNumber? t m) (.ofNumber? t n) = .ok (.ofNumber? t (Option.map₂ op.exact m n)) := by
  cases m with
  | none =>
      rw [hm rfl]
      rfl
  | some m =>
      cases n with
      | none =>
          rw [hn rfl]
          rfl
      | some n =>
          rw [BinaryOp.applyLifted_of_isNull rfl]
          exact congrArg Outcome.ofOption (BinaryOp.apply_wrapping heap op m n)

end Operators

/-! ## Nodes -/

namespace IntExpr

variable {t : IntType} {x y : IntExpr t} {cx : EmitContext} {scope : EmitScope}
  {args : List Value} {heap : Heap} {r l : Outcome Value}

theorem computes_plus (checked : Bool) (id : Nat)
    (hx : (x.node checked).Computes cx scope args heap r) :
    ((plus id x).node checked).Computes cx scope args heap r := by
  have haction : unaryAction? cx.schema .unaryPlus (t.operandTy x.isOptional) (x.node checked).ty
      none x.isOptional = some (.primitive .plus, x.isOptional) := by
    rw [ty_node]
    cases x.isOptional <;> cases t <;> rfl
  have hresult : r >>= UnaryOp.plus.applyLifted x.isOptional = r := by
    cases r with
    | error e => rfl
    | ok v => exact UnaryOp.applyLifted_plus x.isOptional v
  rw [node_plus, ← hresult]
  exact .unary id haction hx

theorem computes_negate (checked : Bool) (id : Nat)
    (hx : (x.node checked).Computes cx scope args heap r) :
    ((negate id x).node checked).Computes cx scope args heap
      (r >>= (UnaryOp.negation checked t).applyLifted x.isOptional) := by
  have haction : unaryAction? cx.schema (.negation checked) (t.operandTy x.isOptional)
      (x.node checked).ty none x.isOptional
        = some (.primitive (.negation checked t), x.isOptional) := by
    rw [ty_node]
    cases checked <;> cases x.isOptional <;> rfl
  rw [node_negate]
  exact .unary id haction hx

theorem computes_binary (checked : Bool) (id : Nat) (op : ArithOp)
    (hx : (x.node checked).Computes cx scope args heap l)
    (hy : (y.node checked).Computes cx scope args heap r) :
    ((binary id op x y).node checked).Computes cx scope args heap (l >>= fun a => r >>=
      (op.binaryOp checked t).applyLifted
        (if x.isOptional || y.isOptional then some .null else none) heap a) := by
  have hform : binaryForm? cx.schema (op.kind checked) (t.operandTy (x.isOptional || y.isOptional))
      (x.node checked).ty none (x.isOptional || y.isOptional)
        = some (.strict (.primitive (op.binaryOp checked t))
            (if x.isOptional || y.isOptional then some .null else none)) := by
    rw [ty_node]
    cases op <;> cases checked <;> cases x.isOptional <;> cases y.isOptional <;> rfl
  rw [node_binary]
  exact .binary id hform hx hy

/-! ## Whole trees -/

/-- Every number that comes up is in the range of the type. -/
def Representable (ρ : Nat → Value) (x : IntExpr t) : Prop :=
  ∀ y ∈ x.subtrees, ∃ n, y.number? ρ = some n ∧ t.InRange n

instance (ρ : Nat → Value) (x : IntExpr t) : Decidable (x.Representable ρ) :=
  decidable_of_iff (∀ y ∈ x.subtrees, (y.number? ρ).any (t.InRange ·) = true) (by
    simp only [Representable, Option.any_eq_true, decide_eq_true_eq])

section Results

variable {schema : Schema} {ρ : Nat → Value}

section Leaves

variable {id number : Nat} {optional : Bool} {name : String}

/-- A parameter stands for the word of its number. -/
theorem ofNumber?_number? (h : ReadsSlots schema scope args ρ
      (parameter (t := t) id optional number name).parameters) :
    .ofNumber? t (ρ number).number? = ρ number :=
  Value.ofNumber?_number? (h _ (List.mem_singleton_self _)).1

/-- Only an optional tree may lack a number. -/
theorem isOptional_of_number? (h : ReadsSlots schema scope args ρ x.parameters)
    (hx : x.number? ρ = none) : x.isOptional = true := by
  induction x with
  | constant => cases hx
  | missing => rfl
  | parameter id optional number name =>
      cases optional with
      | true => rfl
      | false =>
          obtain ⟨w, hw⟩ := Value.eq_int (h _ (List.mem_singleton_self _)).1
          rw [number?, hw] at hx
          cases hx
  | plus _ _ ih => exact ih h hx
  | negate _ _ ih => exact ih h (Option.map_eq_none_iff.mp hx)
  | binary _ _ _ _ ihx ihy =>
      rw [isOptional, Bool.or_eq_true_iff]
      exact (Option.map₂_eq_none_iff.mp hx).imp (ihx h.left) (ihy h.right)

/-- A tree lacks a number exactly if a leaf is missing. -/
theorem number?_eq_none (h : ReadsSlots schema scope args ρ x.parameters) :
    x.number? ρ = none ↔ .null ∈ x.leaves ρ := by
  induction x with
  | constant => simp [number?, leaves]
  | missing => simp [number?, leaves]
  | parameter id optional number name =>
      rw [leaves, List.mem_singleton, number?, ← Value.ofNumber?_eq_null, ofNumber?_number? h,
        eq_comm]
  | plus _ _ ih => exact ih h
  | negate _ _ ih => rw [number?, Option.map_eq_none_iff, ih h, leaves]
  | binary _ _ _ _ ihx ihy =>
      rw [number?, Option.map₂_eq_none_iff, ihx h.left, ihy h.right, leaves, List.mem_append]

end Leaves

/-- **Wrapping operators compute modulo the width.** The induction is on the expression; a missing
operand is passed on because the operators above it are lifted. -/
theorem computes_wrapping (h : ReadsSlots schema scope args ρ x.parameters) :
    (x.node false).Computes cx scope args heap (.ok (.ofNumber? t (x.number? ρ))) := by
  induction x with
  | constant id optional w =>
      have hw : Value.ofNumber? t (some w.toInt) = .int t w := congrArg _ w.ofInt_toInt
      rw [number?, hw]
      exact .constant id _ _
  | missing id => exact .constant id .null _
  | parameter id optional number name =>
      obtain ⟨-, i, ha, hv⟩ := h _ (List.mem_singleton_self _)
      rw [number?, ofNumber?_number? h]
      exact .parameter id ha hv
  | plus id x ih => exact computes_plus false id (ih h)
  | negate id x ih =>
      rw [number?, ← UnaryOp.applyLifted_negate (isOptional_of_number? (x := x) h)]
      exact computes_negate false id (ih h)
  | binary id op x y ihx ihy =>
      have hx : x.number? ρ = none → (x.isOptional || y.isOptional) = true := fun hx =>
        Bool.or_eq_true_iff.mpr (.inl (isOptional_of_number? h.left hx))
      have hy : y.number? ρ = none → (x.isOptional || y.isOptional) = true := fun hy =>
        Bool.or_eq_true_iff.mpr (.inr (isOptional_of_number? h.right hy))
      rw [number?, ← BinaryOp.applyLifted_wrapping heap op hx hy]
      exact computes_binary false id op (ihx h.left) (ihy h.right)

namespace Representable

theorem self (h : x.Representable ρ) : ∃ n, x.number? ρ = some n ∧ t.InRange n := by
  cases x <;> exact h _ List.mem_cons_self

theorem plus_iff {id : Nat} : (plus id x).Representable ρ ↔ x.Representable ρ := by
  simp only [Representable, subtrees, List.forall_mem_cons, number?]
  exact ⟨And.right, fun h => ⟨self h, h⟩⟩

theorem negate_iff {id : Nat} : (negate id x).Representable ρ ↔
    (∃ n, (negate id x).number? ρ = some n ∧ t.InRange n) ∧ x.Representable ρ :=
  List.forall_mem_cons

theorem binary_iff {id : Nat} {op : ArithOp} : (binary id op x y).Representable ρ ↔
    (∃ n, (binary id op x y).number? ρ = some n ∧ t.InRange n) ∧
      x.Representable ρ ∧ y.Representable ρ := by
  rw [Representable, subtrees, List.forall_mem_cons, List.forall_mem_append]
  rfl

end Representable

/-- A leaf of type `t` has a number in the range of `t`. -/
theorem representable_parameter {id number : Nat} {name : String}
    (h : ReadsSlots schema scope args ρ (parameter (t := t) id false number name).parameters) :
    (parameter (t := t) id false number name).Representable ρ := by
  obtain ⟨w, hw⟩ := Value.eq_int (h _ (List.mem_singleton_self _)).1
  intro y hy
  obtain rfl := List.mem_singleton.mp hy
  exact ⟨w.toInt, by rw [number?, hw]; rfl, w.toInt_inRange⟩

/-- What a checked tree gives: its number if every number that comes up is in range, and an
overflow otherwise. -/
def CheckedResult (ρ : Nat → Value) (x : IntExpr t) (r : Outcome Value) : Prop :=
  (x.Representable ρ ∧ r = .ok (.ofNumber? t (x.number? ρ))) ∨
    (¬ x.Representable ρ ∧ r = .error (.raised .overflow))

namespace CheckedResult

theorem plus {id : Nat} (h : x.CheckedResult ρ r) : (plus id x).CheckedResult ρ r := by
  unfold CheckedResult
  rw [Representable.plus_iff]
  exact h

/-- A tree whose own number decides. -/
theorem ofNumber {n : Int} (hn : x.number? ρ = some n)
    (hrep : x.Representable ρ ↔ t.InRange n) :
    x.CheckedResult ρ
      (.ofExcept (if t.InRange n then .ok (.ofInt t n) else .error .overflow)) := by
  by_cases hrange : t.InRange n
  · rw [if_pos hrange]
    exact .inl ⟨hrep.mpr hrange, by rw [hn]; rfl⟩
  · rw [if_neg hrange]
    exact .inr ⟨fun h => hrange (hrep.mp h), rfl⟩

theorem negate {id : Nat} (h : x.CheckedResult ρ r) :
    (negate id x).CheckedResult ρ (r >>= (UnaryOp.negateChecked t).applyLifted false) := by
  rcases h with ⟨hx, rfl⟩ | ⟨hx, rfl⟩
  · obtain ⟨n, hn, hrange⟩ := hx.self
    have hnumber : (IntExpr.negate id x).number? ρ = some (-n) := by
      rw [number?, hn, Option.map_some]
    have hrep : (IntExpr.negate id x).Representable ρ ↔ t.InRange (-n) := by
      simp only [Representable.negate_iff, hnumber, Option.some.injEq, exists_eq_left', hx,
        and_true]
    have hresult : (UnaryOp.negateChecked t).applyLifted false (.ofNumber? t (some n)) = _ :=
      congrArg Outcome.ofExcept (UnaryOp.apply_negateChecked hrange)
    have hnode := ofNumber hnumber hrep
    rw [← hresult] at hnode
    rw [hn]
    exact hnode
  · exact .inr ⟨fun h => hx (Representable.negate_iff.mp h).2, rfl⟩

theorem binary {id : Nat} {op : ArithOp} (hx : x.CheckedResult ρ l) (hy : y.CheckedResult ρ r) :
    (binary id op x y).CheckedResult ρ
      (l >>= fun a => r >>= (BinaryOp.checked op t).applyLifted none heap a) := by
  rcases hx with ⟨hx, rfl⟩ | ⟨hx, rfl⟩
  · rcases hy with ⟨hy, rfl⟩ | ⟨hy, rfl⟩
    · obtain ⟨m, hm, hrm⟩ := hx.self
      obtain ⟨n, hn, hrn⟩ := hy.self
      have hnumber : (IntExpr.binary id op x y).number? ρ = some (op.exact m n) := by
        rw [number?, hm, hn, Option.map₂_some_some]
      have hrep : (IntExpr.binary id op x y).Representable ρ ↔ t.InRange (op.exact m n) := by
        simp only [Representable.binary_iff, hnumber, Option.some.injEq, exists_eq_left', hx, hy,
          and_true]
      have hresult : (BinaryOp.checked op t).applyLifted none heap (.ofNumber? t (some m))
          (.ofNumber? t (some n)) = .ofExcept _ :=
        congrArg Outcome.ofOption (BinaryOp.apply_checked heap op hrm hrn)
      have hnode := ofNumber hnumber hrep
      rw [← hresult] at hnode
      rw [hm, hn]
      exact hnode
    · exact .inr ⟨fun h => hy (Representable.binary_iff.mp h).2.2, rfl⟩
  · exact .inr ⟨fun h => hx (Representable.binary_iff.mp h).2.1, rfl⟩

end CheckedResult

/-- **Checked operators are exact or overflow.** The induction is on the expression. -/
theorem computes_checked (h : ReadsSlots schema scope args ρ x.parameters)
    (hplain : x.isOptional = false) :
    ∃ r, (x.node true).Computes cx scope args heap r ∧ x.CheckedResult ρ r := by
  induction x with
  | constant id optional w =>
      refine ⟨.ok (.int t w), .constant id _ _, .inl ⟨fun y hy => ?_, ?_⟩⟩
      · obtain rfl := List.mem_singleton.mp hy
        exact ⟨w.toInt, rfl, w.toInt_inRange⟩
      · exact congrArg (fun w => Except.ok (Value.int t w)) w.ofInt_toInt.symm
  | missing => cases hplain
  | parameter id optional number name =>
      obtain rfl : optional = false := hplain
      obtain ⟨-, i, ha, hv⟩ := h _ (List.mem_singleton_self _)
      refine ⟨.ok (ρ number), .parameter id ha hv, .inl ⟨representable_parameter h, ?_⟩⟩
      rw [number?, ofNumber?_number? h]
  | plus id x ih =>
      obtain ⟨r, hr, hres⟩ := ih h hplain
      exact ⟨r, computes_plus true id hr, hres.plus⟩
  | negate id x ih =>
      obtain ⟨r, hr, hres⟩ := ih h hplain
      have hnode := computes_negate true id hr
      rw [show x.isOptional = false from hplain] at hnode
      exact ⟨_, hnode, hres.negate⟩
  | binary id op x y ihx ihy =>
      obtain ⟨hxp, hyp⟩ := Bool.or_eq_false_iff.mp hplain
      obtain ⟨l, hl, hlres⟩ := ihx h.left hxp
      obtain ⟨r, hr, hrres⟩ := ihy h.right hyp
      have hnode := computes_binary true id op hl hr
      rw [show (x.isOptional || y.isOptional) = false from hplain] at hnode
      exact ⟨_, hnode, hlres.binary hrres⟩

end Results

/-! ## Arguments -/

/-- A lambda around the tree. -/
def lambda (checked : Bool) (id : Nat) (name : Option String) (params : List Parameter)
    (x : IntExpr t) : Lambda Value :=
  .mk id name params (x.node checked)

theorem captures_lambda (checked : Bool) (id : Nat) (name : Option String)
    (params : List Parameter) (x : IntExpr t) :
    (x.lambda checked id name params).captures.ofLambda id = [] :=
  Lambda.captures_ofLambda_eq_nil (l := x.lambda checked id name params) fun _ ho =>
    within_eq_nil ho

/-- The parameters are in the slots of their arguments. -/
theorem readsSlots {schema : Schema} {params : List Parameter}
    (h : Supplies schema params args x.parameters) (checked : Bool) (id : Nat)
    (name : Option String) :
    ReadsSlots schema ((x.lambda checked id name params).emitScope
      (x.lambda checked id name params).captures none 0) args (argumentOf params args)
      x.parameters :=
  Supplies.readsSlots (l := x.lambda checked id name params) h
    (captures_lambda checked id name params x)

end IntExpr

/-! ## Evaluations -/

section Evaluations

variable {e : Environment} {t : IntType} {x : IntExpr t} {params : List Parameter}
  {args : List Value}

/-- Evaluating a lambda around the tree. -/
theorem IntExpr.eval (h : Supplies e.schema params args x.parameters) {checked : Bool} (i j : Nat)
    (name : Option String) {w : World} {r : Outcome Value}
    (hr : (x.node checked).Computes ⟨e.schema, (x.lambda checked j name params).captures⟩
      ((x.lambda checked j name params).emitScope (x.lambda checked j name params).captures none 0)
      args w.heap r) :
    e.eval (.ofLambda i (x.lambda checked j name params)) args w = (r.report, w) :=
  Environment.eval_of_computes i (captures_lambda checked j name params x)
    (Supplies.checkArguments (l := x.lambda checked j name params) h) hr

/-- **Wrapping arithmetic.** Evaluating a tree of additions, subtractions, multiplications,
negations and plus signs always succeeds. The result is missing exactly if a leaf is, and
otherwise it is the one word congruent modulo `2 ^ t.width` to the exact number of the tree. -/
theorem eval_wrapping_arithmetic (h : Supplies e.schema params args x.parameters) (i j : Nat)
    (name : Option String) (w : World) :
    let ρ := argumentOf params args
    ∃ v, e.eval (.ofLambda i (x.lambda false j name params)) args w = (.ok v, w) ∧
      (v = .null ↔ .null ∈ x.leaves ρ) ∧
      (.null ∉ x.leaves ρ → ∃ n word, x.number? ρ = some n ∧ v = .int t word ∧
        ∀ m : Word t, m.toInt ≡ n [ZMOD 2 ^ t.width] ↔ m = word) := by
  intro ρ
  have hreads := IntExpr.readsSlots h false j name
  refine ⟨_, IntExpr.eval h i j name (IntExpr.computes_wrapping hreads), ?_, fun hleaves => ?_⟩
  · rw [Value.ofNumber?_eq_null, IntExpr.number?_eq_none hreads]
  · cases hn : x.number? ρ with
    | none => exact absurd ((IntExpr.number?_eq_none hreads).mp hn) hleaves
    | some n => exact ⟨n, .ofInt t n, rfl, rfl, fun _ => Word.toInt_modEq_iff⟩

/-- The expression `a * 100 - -(+b)` where `b` is optional. -/
def IntExpr.linear : IntExpr .i8 :=
  .binary 0 .sub
    (.binary 1 .mul (.parameter 2 false 0 "a") (.constant 3 true (.ofInt .i8 100)))
    (.negate 4 (.plus 5 (.parameter 6 true 1 "b")))

/-- The parameter `a` is declared twice. -/
def IntExpr.linearParams : List Parameter :=
  [⟨0, "a", .int .i8⟩, ⟨1, "b", .nullable (.int .i8)⟩, ⟨0, "a", .int .i8⟩]

theorem IntExpr.linear_supplies {b : Value}
    (hb : b.conformsTo .empty (.nullable (.int .i8)) = true) :
    Supplies .empty linearParams [.ofInt .i8 1, b, .ofInt .i8 2] IntExpr.linear.parameters where
  declared := by simp [linear, linearParams, parameters, IntType.operandTy]
  identified := by simp [linearParams]
  conform := .cons rfl (.cons hb (.cons rfl .nil))

/-- The number 300 wraps around to 44, and a missing operand makes the result missing. -/
theorem eval_wrapping_arithmetic_linear :
    let e : Environment := ⟨.empty, fun _ _ heap _ => .done (.ok .unit) heap, 1000, 0⟩
    let root : Tree := .ofLambda 8 (IntExpr.linear.lambda false 7 none IntExpr.linearParams)
    e.eval root [.ofInt .i8 1, .ofInt .i8 100, .ofInt .i8 2] {} = (.ok (.ofInt .i8 44), {}) ∧
      e.eval root [.ofInt .i8 1, .null, .ofInt .i8 2] {} = (.ok .null, {}) := by
  intro e root
  constructor
  · obtain ⟨v, hv, -, hword⟩ := eval_wrapping_arithmetic (e := e)
      (IntExpr.linear_supplies (b := .ofInt .i8 100) rfl) 8 7 none {}
    obtain ⟨n, word, hn, rfl, hm⟩ := hword (by
      simp [IntExpr.linear, IntExpr.leaves, argumentOf, IntExpr.linearParams, lastIndex?,
        Value.ofInt])
    obtain rfl : 300 = n := Option.some.inj hn
    obtain rfl : .ofInt .i8 44 = word := (hm (.ofInt .i8 44)).mp (by decide)
    exact hv
  · obtain ⟨v, hv, hnull, -⟩ := eval_wrapping_arithmetic (e := e)
      (IntExpr.linear_supplies (b := .null) rfl) 8 7 none {}
    obtain rfl : v = .null := hnull.mpr (by
      simp [IntExpr.linear, IntExpr.leaves, argumentOf, IntExpr.linearParams, lastIndex?])
    exact hv

/-- **Checked arithmetic.** Evaluating a tree of checked operators over leaves of type `t` succeeds
exactly if the number of every tree inside it is in the range of `t`. Then the result is the exact
number, which the wrapping operators give too; in all other cases it is an overflow. -/
theorem eval_checked_arithmetic (h : Supplies e.schema params args x.parameters)
    (hplain : x.isOptional = false) (i j : Nat) (name : Option String) (w : World) :
    let ρ := argumentOf params args
    let eval (checked : Bool) := e.eval (.ofLambda i (x.lambda checked j name params)) args w
    ((∃ v w', eval true = (.ok v, w')) ↔ x.Representable ρ) ∧
      (x.Representable ρ → ∃ word : Word t, x.number? ρ = some word.toInt ∧
        eval true = (.ok (.int t word), w) ∧ eval false = (.ok (.int t word), w)) ∧
      (¬ x.Representable ρ → eval true = (.error (.raised (.runtime .overflow)), w)) := by
  intro ρ eval
  have hwrapping : eval false = (.ok (.ofNumber? t (x.number? ρ)), w) :=
    IntExpr.eval h i j name (IntExpr.computes_wrapping (IntExpr.readsSlots h false j name))
  obtain ⟨r, hr, hresult⟩ := IntExpr.computes_checked (IntExpr.readsSlots h true j name) hplain
  have hchecked : eval true = (r.report, w) := IntExpr.eval h i j name hr
  rcases hresult with ⟨hrep, rfl⟩ | ⟨hrep, rfl⟩
  · obtain ⟨n, hn, hrange⟩ := hrep.self
    refine ⟨⟨fun _ => hrep, fun _ => ⟨_, _, hchecked⟩⟩, fun _ => ?_, fun h => absurd hrep h⟩
    refine ⟨.ofInt t n, by rw [Word.toInt_ofInt hrange, hn], ?_, ?_⟩
    · rw [hchecked, hn]
      rfl
    · rw [hwrapping, hn]
      rfl
  · refine ⟨⟨fun ⟨v, w', hv⟩ => ?_, fun h => absurd h hrep⟩, fun h => absurd h hrep,
      fun _ => hchecked⟩
    rw [hchecked] at hv
    cases hv

/-- The expression `(a - b) + b`. -/
def IntExpr.difference : IntExpr .u8 :=
  .binary 0 .add (.binary 1 .sub (.parameter 2 false 0 "a") (.parameter 3 false 1 "b"))
    (.parameter 4 false 1 "b")

def IntExpr.differenceParams : List Parameter := [⟨0, "a", .int .u8⟩, ⟨1, "b", .int .u8⟩]

theorem IntExpr.difference_supplies (a b : Int) :
    Supplies .empty differenceParams [.ofInt .u8 a, .ofInt .u8 b]
      IntExpr.difference.parameters where
  declared := by simp [difference, differenceParams, parameters, IntType.operandTy]
  identified := by simp [differenceParams]
  conform := .cons rfl (.cons rfl .nil)

/-- On 5 and 3 the result is 5. On 3 and 5 the number of the whole tree is in range, but that of
the difference is not. -/
theorem eval_checked_arithmetic_difference :
    let e : Environment := ⟨.empty, fun _ _ heap _ => .done (.ok .unit) heap, 1000, 0⟩
    let root : Tree := .ofLambda 8 (IntExpr.difference.lambda true 7 none IntExpr.differenceParams)
    e.eval root [.ofInt .u8 5, .ofInt .u8 3] {} = (.ok (.ofInt .u8 5), {}) ∧
      e.eval root [.ofInt .u8 3, .ofInt .u8 5] {}
        = (.error (.raised (.runtime .overflow)), {}) := by
  intro e root
  constructor
  · obtain ⟨-, hok, -⟩ := eval_checked_arithmetic (e := e) (IntExpr.difference_supplies 5 3) rfl
      8 7 none {}
    obtain ⟨word, hn, hv, -⟩ := hok (by decide)
    have hfive : 5 = word.toInt := Option.some.inj hn
    obtain rfl : .ofInt .u8 5 = word := by rw [hfive, Word.ofInt_toInt]
    exact hv
  · obtain ⟨-, -, hoverflow⟩ := eval_checked_arithmetic (e := e) (IntExpr.difference_supplies 3 5)
      rfl 8 7 none {}
    exact hoverflow (by decide)

end Evaluations

end ExprTree
