import ExprTree.Value.Text
import ExprTree.Error

set_option autoImplicit false

/-! # Primitive operators

An operator is selected once, from the kind of a node and the type of its first operand, and then
applied to values. The values are inspected again when it is applied: an operand without a value
or of another type is an error.
-/

namespace ExprTree

/-! ## Operands -/

namespace Value

/-- The error of an operand that should have been an `expected`. -/
def mismatch (expected : String) (v : Value) : RuntimeError :=
  if v.isNull then .nullValue else .typeMismatch expected v.typeName

/-- An operand of the integer type `t`. -/
def asWord (t : IntType) : Value → Except RuntimeError (Word t)
  | .int s w => if h : s = t then .ok (h ▸ w) else .error (mismatch t.name (.int s w))
  | v => .error (mismatch t.name v)

/-- A 32-bit floating-point operand. -/
def asF32 : Value → Except RuntimeError Float32
  | .f32 x => .ok x
  | v => .error (mismatch "f32" v)

/-- A 64-bit floating-point operand. -/
def asF64 : Value → Except RuntimeError Float
  | .f64 x => .ok x
  | v => .error (mismatch "f64" v)

/-- A character operand. -/
def asChar : Value → Except RuntimeError Char
  | .char c => .ok c
  | v => .error (mismatch "char" v)

/-- A truth value. -/
def asBool : Value → Except RuntimeError Bool
  | .bool b => .ok b
  | v => .error (mismatch "bool" v)

/-- A truth value or none. -/
def asOptionalBool : Value → Except RuntimeError (Option Bool)
  | .null => .ok none
  | v => return some (← v.asBool)

/-- An integer of any type that fits into 64 signed bits. -/
def asIndex : Value → Except RuntimeError Int
  | .int _ w => if IntType.i64.InRange w.toInt then .ok w.toInt else .error .overflow
  | v => .error (.typeMismatch "integer" v.typeName)

end Value

/-! ## Integers -/

/-- The operations that have a wrapping and a checked form. -/
inductive ArithOp
  | add | sub | mul
deriving DecidableEq

namespace ArithOp

/-- The exact result. -/
def exact : ArithOp → Int → Int → Int
  | .add, a, b => a + b
  | .sub, a, b => a - b
  | .mul, a, b => a * b

/-- The result modulo `2 ^ width`. -/
def wrapping {t : IntType} : ArithOp → Word t → Word t → Word t
  | .add => Word.add
  | .sub => Word.sub
  | .mul => Word.mul

/-- The exact result, or an overflow. -/
def checked {t : IntType} (op : ArithOp) (a b : Word t) : Except RuntimeError (Word t) :=
  match Word.ofInt? t (op.exact a.toInt b.toInt) with
  | some w => .ok w
  | none => .error .overflow

end ArithOp

namespace Word

variable {t : IntType}

/-- The quotient toward zero. The least value divided by minus one has none. -/
def divide (a b : Word t) : Except RuntimeError (Word t) :=
  if b.toInt = 0 then .error .divideByZero
  else
    match Word.ofInt? t (a.toInt.tdiv b.toInt) with
    | some q => .ok q
    | none => .error .overflow

/-- The remainder of the quotient toward zero. The least value has none for the divisor minus one:
there the quotient overflows. -/
def modulo (a b : Word t) : Except RuntimeError (Word t) :=
  if b.toInt = 0 then .error .divideByZero
  else if a.toInt = t.minValue ∧ b.toInt = -1 then .error .overflow
  else .ok (Word.ofInt t (a.toInt.tmod b.toInt))

/-- The negated number, or an overflow. -/
def checkedNeg (a : Word t) : Except RuntimeError (Word t) :=
  match Word.ofInt? t (-a.toInt) with
  | some w => .ok w
  | none => .error .overflow

end Word

/-- The bitwise operations with two operands. -/
inductive BitOp
  | and | or | xor
deriving DecidableEq

namespace BitOp

/-- On words. -/
def onWords {t : IntType} : BitOp → Word t → Word t → Word t
  | .and => Word.and
  | .or => Word.or
  | .xor => Word.xor

/-- On truth values. -/
def onBools : BitOp → Bool → Bool → Bool
  | .and => Bool.and
  | .or => Bool.or
  | .xor => Bool.xor

end BitOp

/-! ## Floating-point numbers -/

/-- The operations on floating-point numbers. -/
inductive FloatOp
  | add | sub | mul | div | rem | pow
deriving DecidableEq

namespace FloatOp

/-- On 32 bits. -/
def on32 : FloatOp → Float32 → Float32 → Float32
  | .add, a, b => a + b
  | .sub, a, b => a - b
  | .mul, a, b => a * b
  | .div, a, b => a / b
  | .rem, a, b =>
      Float32.ofBits (.ofNat (FloatFormat.single.rem a.toBits.toNat b.toBits.toNat))
  | .pow, a, b => a.pow b

/-- On 64 bits. -/
def on64 : FloatOp → Float → Float → Float
  | .add, a, b => a + b
  | .sub, a, b => a - b
  | .mul, a, b => a * b
  | .div, a, b => a / b
  | .rem, a, b => Float.ofBits (.ofNat (FloatFormat.double.rem a.toBits.toNat b.toBits.toNat))
  | .pow, a, b => a.pow b

end FloatOp

/-! ## Comparisons -/

/-- The order comparisons. -/
inductive OrderOp
  | lt | le | gt | ge
deriving DecidableEq

/-- The types that have an order. -/
inductive Ordered
  | char
  | int (t : IntType)
  | f32
  | f64
deriving DecidableEq

namespace OrderOp

/-- On numbers. -/
def onInts : OrderOp → Int → Int → Bool
  | .lt, a, b => a < b
  | .le, a, b => a ≤ b
  | .gt, a, b => b < a
  | .ge, a, b => b ≤ a

/-- On 32-bit floating-point numbers; nothing compares with what is no number. -/
def on32 : OrderOp → Float32 → Float32 → Bool
  | .lt, a, b => a < b
  | .le, a, b => a ≤ b
  | .gt, a, b => b < a
  | .ge, a, b => b ≤ a

/-- On 64-bit floating-point numbers; nothing compares with what is no number. -/
def on64 : OrderOp → Float → Float → Bool
  | .lt, a, b => a < b
  | .le, a, b => a ≤ b
  | .gt, a, b => b < a
  | .ge, a, b => b ≤ a

/-- On values of an ordered type. -/
def apply (op : OrderOp) : Ordered → Value → Value → Except RuntimeError Bool
  | .char, l, r => do
      let a ← l.asChar
      let b ← r.asChar
      return op.onInts a.toNat b.toNat
  | .int t, l, r => do
      let a ← l.asWord t
      let b ← r.asWord t
      return op.onInts a.toInt b.toInt
  | .f32, l, r => do
      let a ← l.asF32
      let b ← r.asF32
      return op.on32 a b
  | .f64, l, r => do
      let a ← l.asF64
      let b ← r.asF64
      return op.on64 a b

end OrderOp

/-- The ordered type of a static type. -/
def Ty.ordered? : Ty → Option Ordered
  | .char => some .char
  | .int t => some (.int t)
  | .f32 => some .f32
  | .f64 => some .f64
  | _ => none

/-! ## Operators with two operands -/

/-- A primitive operator with two operands. -/
inductive BinaryOp
  /-- Concatenation of texts, `null` counting as the empty text. -/
  | concat
  | wrapping (op : ArithOp) (t : IntType)
  | checked (op : ArithOp) (t : IntType)
  | divide (t : IntType)
  | modulo (t : IntType)
  | float32 (op : FloatOp)
  | float64 (op : FloatOp)
  | shiftLeft (t : IntType)
  | shiftRight (t : IntType)
  | bits (op : BitOp) (t : IntType)
  | bools (op : BitOp)
  | equal
  | notEqual
  | order (op : OrderOp) (t : Ordered)
deriving DecidableEq

/-- The part of a value in a concatenation, if it has a text. -/
def Value.concatText (heap : Heap) : Value → Option String
  | .null => some ""
  | v => v.text heap

namespace BinaryOp

/-- An operator for integers and one for floating-point numbers. -/
def numeric (int : IntType → BinaryOp) (op : FloatOp) : Ty → Option BinaryOp
  | .int t => some (int t)
  | .f32 => some (.float32 op)
  | .f64 => some (.float64 op)
  | _ => none

/-- An operator for integers only. -/
def integer (int : IntType → BinaryOp) : Ty → Option BinaryOp
  | .int t => some (int t)
  | _ => none

/-- A logical operator, bitwise on integers. -/
def logical (op : BitOp) : Ty → Option BinaryOp
  | .bool => some (.bools op)
  | .int t => some (.bits op t)
  | _ => none

/-- The primitive operator of a kind for a left operand of type `ty`, if there is one. -/
def select? (kind : Kind) (ty : Ty) : Option BinaryOp :=
  match kind with
  | .add => if ty = .string then some .concat else numeric (.wrapping .add) .add ty
  | .addChecked => numeric (.checked .add) .add ty
  | .subtract => numeric (.wrapping .sub) .sub ty
  | .subtractChecked => numeric (.checked .sub) .sub ty
  | .multiply => numeric (.wrapping .mul) .mul ty
  | .multiplyChecked => numeric (.checked .mul) .mul ty
  | .divide => numeric .divide .div ty
  | .modulo => numeric .modulo .rem ty
  | .power =>
      match ty with
      | .f32 => some (.float32 .pow)
      | .f64 => some (.float64 .pow)
      | _ => none
  | .leftShift => integer .shiftLeft ty
  | .rightShift => integer .shiftRight ty
  | .and => logical .and ty
  | .or => logical .or ty
  | .exclusiveOr => logical .xor ty
  | .equal => some .equal
  | .notEqual => some .notEqual
  | .lessThan => ty.ordered?.map (.order .lt)
  | .lessThanOrEqual => ty.ordered?.map (.order .le)
  | .greaterThan => ty.ordered?.map (.order .gt)
  | .greaterThanOrEqual => ty.ordered?.map (.order .ge)
  | _ => none

/-- The result on two values, if there is one: a concatenation waits for the texts of its operands.
Operands are inspected from left to right, except that a shift looks at its count first. -/
def apply (heap : Heap) (op : BinaryOp) (l r : Value) : Option (Except RuntimeError Value) :=
  match op with
  | .concat => do
      let a ← l.concatText heap
      let b ← r.concatText heap
      return .ok (.string (a ++ b))
  | .wrapping op t => some do
      let a ← l.asWord t
      let b ← r.asWord t
      return .int t (op.wrapping a b)
  | .checked op t => some do
      let a ← l.asWord t
      let b ← r.asWord t
      return .int t (← op.checked a b)
  | .divide t => some do
      let a ← l.asWord t
      let b ← r.asWord t
      return .int t (← a.divide b)
  | .modulo t => some do
      let a ← l.asWord t
      let b ← r.asWord t
      return .int t (← a.modulo b)
  | .float32 op => some do
      let a ← l.asF32
      let b ← r.asF32
      return .f32 (op.on32 a b)
  | .float64 op => some do
      let a ← l.asF64
      let b ← r.asF64
      return .f64 (op.on64 a b)
  | .shiftLeft t => some do
      let count ← r.asWord .i32
      let a ← l.asWord t
      return .int t (a.shiftLeft count)
  | .shiftRight t => some do
      let count ← r.asWord .i32
      let a ← l.asWord t
      return .int t (a.shiftRight count)
  | .bits op t => some do
      let a ← l.asWord t
      let b ← r.asWord t
      return .int t (op.onWords a b)
  | .bools op => some do
      let a ← l.asBool
      let b ← r.asBool
      return .bool (op.onBools a b)
  | .equal => some (return .bool (l.operatorEq r))
  | .notEqual => some (return .bool (!l.operatorEq r))
  | .order op t => some do return .bool (← op.apply t l r)

end BinaryOp

/-! ## Operators with one operand -/

/-- A primitive operator with one operand. -/
inductive UnaryOp
  | negate (t : IntType)
  | negateChecked (t : IntType)
  | negate32
  | negate64
  | plus
  | notBool
  | notBits (t : IntType)
  | arrayLength
deriving DecidableEq

namespace UnaryOp

/-- The primitive operator of a kind for an operand of type `ty`, if there is one. -/
def select? (kind : Kind) (ty : Ty) : Option UnaryOp :=
  match kind, ty with
  | .negate, .int t => some (.negate t)
  | .negateChecked, .int t => some (.negateChecked t)
  | .negate, .f32 | .negateChecked, .f32 => some .negate32
  | .negate, .f64 | .negateChecked, .f64 => some .negate64
  | .unaryPlus, ty => if ty.isNumeric then some .plus else none
  | .not, .bool => some .notBool
  | .not, .int t => some (.notBits t)
  | .arrayLength, .array _ => some .arrayLength
  | _, _ => none

/-- The result on a value. -/
def apply (op : UnaryOp) (v : Value) : Except RuntimeError Value :=
  match op with
  | .negate t => return .int t (← v.asWord t).neg
  | .negateChecked t => do
      let a ← v.asWord t
      return .int t (← a.checkedNeg)
  | .negate32 => return .f32 (-(← v.asF32))
  | .negate64 => return .f64 (-(← v.asF64))
  | .plus => return v
  | .notBool => return .bool (!(← v.asBool))
  | .notBits t => return .int t (← v.asWord t).not
  | .arrayLength =>
      match v with
      | .array _ items =>
          match Word.ofInt? .i32 items.length with
          | some n => .ok (.int .i32 n)
          | none => .error .overflow
      | .null => .error .nullReference
      | v => .error (v.mismatch "array")

end UnaryOp

/-! ## Missing operands -/

/-- What an operator lifted over optional operands gives when one of them has no value. -/
inductive NullResult
  | null
  /-- A comparison that does not hold. -/
  | untrue
  /-- Equality: true only if both operands are missing. -/
  | bothNull
  /-- Inequality: true unless both operands are missing. -/
  | notBothNull
deriving DecidableEq

namespace NullResult

/-- Comparisons with a plain result type give a truth value, everything else gives `null`. -/
def ofKind (kind : Kind) (ty : Ty) : NullResult :=
  if !kind.isRelational || ty.admitsNull then .null
  else
    match kind with
    | .equal => .bothNull
    | .notEqual => .notBothNull
    | _ => .untrue

/-- The result, given the operands. -/
def resolve (n : NullResult) (l r : Value) : Value :=
  match n with
  | .null => .null
  | .untrue => .bool false
  | .bothNull => .bool (l.isNull && r.isNull)
  | .notBothNull => .bool (!(l.isNull && r.isNull))

end NullResult

/-! ## Three-valued logic -/

/-- Conjunction and disjunction of optional truth values: a missing one is unknown. -/
def kleeneValue (conjunction : Bool) (l r : Option Bool) : Value :=
  let decisive := !conjunction
  if l = some decisive || r = some decisive then .bool decisive
  else if l = some conjunction && r = some conjunction then .bool conjunction
  else .null

end ExprTree
