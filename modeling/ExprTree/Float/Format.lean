set_option autoImplicit false

/-! # The exact value of a floating-point number

A binary interchange format is given by the widths of its fraction and its exponent. A finite
bit pattern stands for exactly one number `± mantissa · 2 ^ exponent`; on these numbers the
integer part and the remainder are computed without rounding.
-/

namespace ExprTree

/-- A binary floating-point format. -/
structure FloatFormat where
  /-- Stored bits of the significand. -/
  fractionBits : Nat
  /-- Bits of the biased exponent. -/
  exponentBits : Nat

/-- The number `± mantissa · 2 ^ exponent`. A zero keeps its sign. -/
structure Scaled where
  negative : Bool
  mantissa : Nat
  exponent : Int
deriving DecidableEq

namespace Scaled

/-- The integer part, toward zero. -/
def trunc (x : Scaled) : Int :=
  let n : Nat :=
    if 0 ≤ x.exponent then x.mantissa * Nat.pow 2 x.exponent.toNat
    else x.mantissa / Nat.pow 2 (-x.exponent).toNat
  if x.negative then -(n : Int) else n

/-- The remainder of the division toward zero: it has the sign of `x` and is smaller than `y`. -/
def rem (x y : Scaled) : Scaled :=
  let e := min x.exponent y.exponent
  let a := x.mantissa * Nat.pow 2 (x.exponent - e).toNat
  let b := y.mantissa * Nat.pow 2 (y.exponent - e).toNat
  ⟨x.negative, a % b, e⟩

end Scaled

/-- What a bit pattern stands for. -/
inductive FloatClass
  | nan
  | infinite (negative : Bool)
  | finite (x : Scaled)
deriving DecidableEq

namespace FloatFormat

/-- 32 bits. -/
def single : FloatFormat := ⟨23, 8⟩

/-- 64 bits. -/
def double : FloatFormat := ⟨52, 11⟩

/-- Exponent of the last place of the numbers next to zero. -/
def minExponent (f : FloatFormat) : Int :=
  2 - (Nat.pow 2 (f.exponentBits - 1) : Nat) - f.fractionBits

/-- The bit pattern of positive infinity. -/
def infinity (f : FloatFormat) : Nat := (Nat.pow 2 f.exponentBits - 1) * Nat.pow 2 f.fractionBits

/-- A quiet pattern that is no number. -/
def nan (f : FloatFormat) : Nat := f.infinity + Nat.pow 2 (f.fractionBits - 1)

/-- The bit that carries the sign. -/
def signBit (f : FloatFormat) : Nat := Nat.pow 2 (f.fractionBits + f.exponentBits)

/-- Reads a bit pattern. -/
def classify (f : FloatFormat) (bits : Nat) : FloatClass :=
  let negative := bits / f.signBit % 2 == 1
  let fraction := bits % Nat.pow 2 f.fractionBits
  let biased := bits / Nat.pow 2 f.fractionBits % Nat.pow 2 f.exponentBits
  if biased = Nat.pow 2 f.exponentBits - 1 then
    if fraction = 0 then .infinite negative else .nan
  else if biased = 0 then
    .finite ⟨negative, fraction, f.minExponent⟩
  else
    .finite ⟨negative, Nat.pow 2 f.fractionBits + fraction, f.minExponent + (biased - 1 : Nat)⟩

/-- The bit pattern of a number that the format holds exactly. -/
def encode (f : FloatFormat) (x : Scaled) : Nat :=
  let sign := if x.negative then f.signBit else 0
  if x.mantissa = 0 then sign
  else
    let length := x.mantissa.log2 + 1
    let e := max f.minExponent (x.exponent + length - (f.fractionBits + 1))
    let m :=
      if e ≤ x.exponent then x.mantissa * Nat.pow 2 (x.exponent - e).toNat
      else x.mantissa / Nat.pow 2 (e - x.exponent).toNat
    -- The leading bit of a normal significand adds one to the biased exponent.
    sign + (e - f.minExponent).toNat * Nat.pow 2 f.fractionBits + m

/-- The remainder of two bit patterns; without a quotient there is no number. -/
def rem (f : FloatFormat) (x y : Nat) : Nat :=
  match f.classify x, f.classify y with
  | .finite _, .infinite _ => x
  | .finite a, .finite b => if b.mantissa = 0 then f.nan else f.encode (a.rem b)
  | _, _ => f.nan

end FloatFormat

end ExprTree
