set_option autoImplicit false

/-! # Fixed-width integers

The eight integer types and their values. A `Word t` is a bit pattern of the width of `t`;
`Word.toInt` reads it as the number it stands for, `Word.ofInt` keeps a number modulo `2 ^ width`,
and `Word.ofInt?` accepts exactly the numbers in the range of `t`.
-/

namespace ExprTree

/-- The integer types: a width of 8, 16, 32 or 64 bits, signed or unsigned. -/
inductive IntType
  | i8 | i16 | i32 | i64 | u8 | u16 | u32 | u64
deriving DecidableEq

namespace IntType

/-- Number of bits. -/
def width : IntType → Nat
  | i8 | u8 => 8
  | i16 | u16 => 16
  | i32 | u32 => 32
  | i64 | u64 => 64

/-- Whether the top bit is a sign. -/
def signed : IntType → Bool
  | i8 | i16 | i32 | i64 => true
  | u8 | u16 | u32 | u64 => false

/-- The name under which the type is written. -/
def name : IntType → String
  | i8 => "i8" | i16 => "i16" | i32 => "i32" | i64 => "i64"
  | u8 => "u8" | u16 => "u16" | u32 => "u32" | u64 => "u64"

/-- The least value. -/
def minValue (t : IntType) : Int := if t.signed then -(Nat.pow 2 (t.width - 1) : Nat) else 0

/-- The greatest value. -/
def maxValue (t : IntType) : Int :=
  if t.signed then (Nat.pow 2 (t.width - 1) : Nat) - 1 else (Nat.pow 2 t.width : Nat) - 1

/-- `n` is a value of type `t`. -/
def InRange (t : IntType) (n : Int) : Prop := t.minValue ≤ n ∧ n ≤ t.maxValue

instance (t : IntType) (n : Int) : Decidable (t.InRange n) :=
  inferInstanceAs (Decidable (_ ∧ _))

end IntType

/-- A value of the integer type `t`, as its bit pattern. -/
structure Word (t : IntType) where
  /-- The bits, two's complement for a signed type. -/
  bits : BitVec t.width
deriving DecidableEq

namespace Word

variable {t : IntType}

/-- The number a word stands for. -/
def toInt (w : Word t) : Int := if t.signed then w.bits.toInt else w.bits.toNat

/-- The word congruent to `n` modulo `2 ^ t.width`. -/
def ofInt (t : IntType) (n : Int) : Word t := ⟨BitVec.ofInt t.width n⟩

/-- The word that stands for `n`, if `n` is in the range of `t`. -/
def ofInt? (t : IntType) (n : Int) : Option (Word t) :=
  if t.InRange n then some (ofInt t n) else none

/-- The zero of type `t`. -/
def zero (t : IntType) : Word t := ofInt t 0

/-- Sum, modulo `2 ^ width`. -/
def add (a b : Word t) : Word t := ⟨a.bits + b.bits⟩

/-- Difference, modulo `2 ^ width`. -/
def sub (a b : Word t) : Word t := ⟨a.bits - b.bits⟩

/-- Product, modulo `2 ^ width`. -/
def mul (a b : Word t) : Word t := ⟨a.bits * b.bits⟩

/-- Negation, modulo `2 ^ width`. -/
def neg (a : Word t) : Word t := ⟨-a.bits⟩

/-- Bitwise conjunction. -/
def and (a b : Word t) : Word t := ⟨a.bits &&& b.bits⟩

/-- Bitwise disjunction. -/
def or (a b : Word t) : Word t := ⟨a.bits ||| b.bits⟩

/-- Bitwise exclusive disjunction. -/
def xor (a b : Word t) : Word t := ⟨a.bits ^^^ b.bits⟩

/-- Bitwise complement. -/
def not (a : Word t) : Word t := ⟨~~~a.bits⟩

/-- The shift distance a count stands for: its low bits, as many as the width can use. -/
def shiftDistance (t : IntType) (count : Word .i32) : Nat := count.bits.toNat % t.width

/-- Shift to the left by the distance of `count`. -/
def shiftLeft (a : Word t) (count : Word .i32) : Word t :=
  ⟨a.bits <<< shiftDistance t count⟩

/-- Shift to the right by the distance of `count`; a signed word keeps its sign. -/
def shiftRight (a : Word t) (count : Word .i32) : Word t :=
  if t.signed then ⟨a.bits.sshiftRight (shiftDistance t count)⟩
  else ⟨a.bits >>> shiftDistance t count⟩

/-- The decimal text of the number. -/
def text (a : Word t) : String := toString a.toInt

end Word

end ExprTree
