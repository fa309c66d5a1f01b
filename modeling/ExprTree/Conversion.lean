import ExprTree.Operator

set_option autoImplicit false

/-! # Conversions

A conversion between two static types is selected once and then applied to values. It is lifted
between optional types, takes the value out of an optional when the target is plain, casts along
the record hierarchy and out of `object`, and converts numbers and characters.
-/

namespace ExprTree

/-- The types a number or character can be converted to. -/
inductive Numeric
  | int (t : IntType)
  | f32
  | f64
  | char
deriving DecidableEq

/-- A number on its way from one type to another. -/
inductive Number
  | int (n : Int)
  | float (x : Float)

namespace Number

/-- The number a value stands for; a character stands for its code point. -/
def ofValue : Value → Except RuntimeError Number
  | .int _ w => .ok (.int w.toInt)
  | .f32 x => .ok (.float x.toFloat)
  | .f64 x => .ok (.float x)
  | .char c => .ok (.int c.toNat)
  | v => .error (v.mismatch "number")

/-- The integer part, if it exists. -/
def trunc? : Number → Option Int
  | .int n => some n
  | .float x =>
      match FloatFormat.double.classify x.toBits.toNat with
      | .finite x => some x.trunc
      | _ => none

/-- The integer part kept between two bounds; what is no number counts as zero. -/
def saturate (low high : Int) : Number → Int
  | .int n => max low (min high n)
  | .float x =>
      match FloatFormat.double.classify x.toBits.toNat with
      | .nan => 0
      | .infinite negative => if negative then low else high
      | .finite x => max low (min high x.trunc)

/-- To an integer type: integers wrap around, other numbers stop at the ends of the range. -/
def toWord (t : IntType) : Number → Word t
  | .int n => Word.ofInt t n
  | .float x => Word.ofInt t ((Number.float x).saturate t.minValue t.maxValue)

/-- To an integer type, if the integer part is in its range. -/
def toWord? (t : IntType) (n : Number) : Option (Word t) := n.trunc?.bind (Word.ofInt? t)

/-- The character of a code in the first plane; surrogates are none. -/
def basicChar? (code : Nat) : Option Char :=
  if code < 0x10000 && Nat.isValidChar code then some (Char.ofNat code) else none

/-- The number as a code, within 128 signed bits. -/
def code (n : Number) : Int :=
  match n with
  | .int i => i
  | .float x =>
      (Number.float x).saturate (-170141183460469231731687303715884105728)
        170141183460469231731687303715884105727

/-- To a character, by the low 16 bits; a surrogate becomes the replacement character. -/
def toChar (n : Number) : Char := (basicChar? (n.code % 0x10000).toNat).getD (Char.ofNat 0xFFFD)

/-- To a character of the first plane, if there is one with this code. -/
def toChar? (n : Number) : Option Char := if n.code < 0 then none else basicChar? n.code.toNat

/-- The nearest 32-bit floating-point number. -/
def toF32 : Number → Float32
  | .int n =>
      let x := (UInt64.ofNat n.natAbs).toFloat32
      if n < 0 then -x else x
  | .float x => x.toFloat32

/-- The nearest 64-bit floating-point number. -/
def toF64 : Number → Float
  | .int n =>
      let x := (UInt64.ofNat n.natAbs).toFloat
      if n < 0 then -x else x
  | .float x => x

end Number

namespace Numeric

/-- The target a static type stands for. -/
def ofTy? : Ty → Option Numeric
  | .int t => some (.int t)
  | .f32 => some .f32
  | .f64 => some .f64
  | .char => some .char
  | _ => none

/-- Converts a number; only a checked conversion to an integer or a character can overflow. -/
def convert (target : Numeric) (checked : Bool) (n : Number) : Except RuntimeError Value :=
  match target with
  | .int t =>
      if checked then
        match n.toWord? t with
        | some w => .ok (.int t w)
        | none => .error .overflow
      else .ok (.int t (n.toWord t))
  | .char =>
      if checked then
        match n.toChar? with
        | some c => .ok (.char c)
        | none => .error .overflow
      else .ok (.char n.toChar)
  | .f32 => .ok (.f32 n.toF32)
  | .f64 => .ok (.f64 n.toF64)

end Numeric

/-- A conversion of values. -/
inductive Conversion
  | identity
  /-- Keeps a missing value, converts any other. -/
  | lifted (inner : Conversion)
  /-- Fails on a missing value, converts any other. -/
  | unwrap (inner : Conversion)
  /-- Keeps a value that conforms to the target. -/
  | cast (target : Ty)
  | numeric (target : Numeric) (checked : Bool)

namespace Conversion

/-- The conversion between two types that are both not optional. -/
def plain? (schema : Schema) (checked : Bool) (source target : Ty) : Option Conversion :=
  if source = target then some .identity
  else
    match source, target with
    | _, .object => some .identity
    | .object, target => some (.cast target)
    | .record r, .record s =>
        if schema.derivesFrom r s then some .identity
        else if schema.derivesFrom s r then some (.cast target)
        else none
    | source, target =>
        if (Numeric.ofTy? source).isSome then (Numeric.ofTy? target).map (.numeric · checked)
        else none

/-- The conversion from a type that is not optional. A value type converts to an optional one as
it does to what the optional holds. -/
def ofPlain? (schema : Schema) (checked : Bool) (source : Ty) : Ty → Option Conversion
  | .nullable target =>
      if source.admitsNull then plain? schema checked source (.nullable target)
      else ofPlain? schema checked source target
  | target => plain? schema checked source target

/-- The conversion from `source` to `target`, if there is one. -/
def select? (schema : Schema) (checked : Bool) : Ty → Ty → Option Conversion
  | .nullable source, target =>
      if .nullable source = target then some .identity
      else
        match target with
        | .nullable target => (select? schema checked source target).map .lifted
        | target =>
            if target.admitsNull then plain? schema checked (.nullable source) target
            else (select? schema checked source target).map .unwrap
  | source, target => ofPlain? schema checked source target

/-- Keeps a value that conforms to the target; `null` only if the target admits it. -/
def castTo (schema : Schema) (target : Ty) (v : Value) : Except RuntimeError Value :=
  if v.isNull then if target.admitsNull then .ok .null else .error .nullReference
  else if v.conformsTo schema target then .ok v
  else .error (.invalidCast v.typeName target)

/-- The converted value. -/
def apply (schema : Schema) : Conversion → Value → Except RuntimeError Value
  | .identity, v => .ok v
  | .lifted inner, v => if v.isNull then .ok .null else inner.apply schema v
  | .unwrap inner, v => if v.isNull then .error .nullValue else inner.apply schema v
  | .cast target, v => castTo schema target v
  | .numeric target checked, v => do target.convert checked (← Number.ofValue v)

end Conversion

end ExprTree
