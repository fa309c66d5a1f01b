import ExprTree.Float.Format

set_option autoImplicit false

/-! # Shortest decimal text of a floating-point number

The text of a finite number has the fewest significant digits that still read back as that
number; of two such decimals it is the nearer one, and the greater one of two equally near. It is
written positionally, without an exponent, and without a point when the number is an integer.
-/

namespace ExprTree

namespace Decimal

/-- Number of decimal digits of a positive number. -/
def digitCount (n : Nat) : Nat := (Nat.toDigits 10 n).length

/-- The place `k` with `10 ^ (k - 1) ≤ num / den < 10 ^ k`, for positive `num` and `den`. -/
def leadingPlace (num den : Nat) : Int :=
  if den ≤ num then digitCount (num / den) else 1 - (digitCount ((den - 1) / num) : Int)

/-- The reals that round to one floating-point number, over a common denominator. -/
structure Interval where
  low : Nat
  value : Nat
  high : Nat
  den : Nat
  /-- Whether the ends belong to the interval. -/
  closed : Bool

namespace Interval

/-- Whether `c · 10 ^ s` lies in the interval. -/
def holds (r : Interval) (c : Nat) (s : Int) : Bool :=
  let c := c * r.den * Nat.pow 10 s.toNat
  let scale := Nat.pow 10 (-s).toNat
  if r.closed then r.low * scale ≤ c && c ≤ r.high * scale
  else r.low * scale < c && c < r.high * scale

/-- The decimal with unit `10 ^ s` that is in the interval, if any: the nearer of the value's two
neighbours, the upper one when they are equally near. -/
def onGrid? (r : Interval) (s : Int) : Option (Nat × Int) :=
  let scaled := r.value * Nat.pow 10 (-s).toNat
  let unit := r.den * Nat.pow 10 s.toNat
  let c := scaled / unit
  let nearUp := unit ≤ 2 * (scaled % unit)
  match r.holds c s && c != 0, r.holds (c + 1) s with
  | true, true => some (if nearUp then c + 1 else c, s)
  | true, false => some (c, s)
  | false, true => some (c + 1, s)
  | false, false => none

/-- Tries grids with `digits`, `digits + 1`, … significant digits, at most `fuel` of them. -/
def search (r : Interval) (place : Int) : (fuel : Nat) → (digits : Nat) → Nat × Int
  | 0, digits => (r.value * Nat.pow 10 (digits - place).toNat / r.den, place - digits)
  | fuel + 1, digits =>
      match r.onGrid? (place - digits) with
      | some d => d
      | none => r.search place fuel (digits + 1)

end Interval

/-- The numbers that round to `mantissa · 2 ^ exponent`. The gap below a power of two is half as
wide as the gap above it, and the ends round to the even neighbour. -/
def roundingInterval (f : FloatFormat) (x : Scaled) : Interval :=
  let narrowBelow := x.mantissa = Nat.pow 2 f.fractionBits ∧ f.minExponent < x.exponent
  let e := x.exponent - 2
  let num := Nat.pow 2 e.toNat
  { low := (4 * x.mantissa - if narrowBelow then 1 else 2) * num
    value := 4 * x.mantissa * num
    high := (4 * x.mantissa + 2) * num
    den := Nat.pow 2 (-e).toNat
    closed := x.mantissa % 2 == 0 }

/-- The shortest decimal `c · 10 ^ s` that reads back as a positive `x`. -/
def shortest (f : FloatFormat) (x : Scaled) : Nat × Int :=
  let r := roundingInterval f x
  r.search (leadingPlace r.value r.den) 17 1

/-- Writes `c · 10 ^ s` positionally, without zeros at the end of the fraction. -/
def positional (c : Nat) (s : Int) : String :=
  let digits := Nat.toDigits 10 c
  if 0 ≤ s then String.ofList (digits ++ List.replicate s.toNat '0')
  else
    let places := (-s).toNat
    let digits := List.replicate (places + 1 - digits.length) '0' ++ digits
    let whole := digits.length - places
    let fraction := ((digits.drop whole).reverse.dropWhile (· == '0')).reverse
    let point := if fraction.isEmpty then [] else ['.']
    String.ofList (digits.take whole ++ point ++ fraction)

end Decimal

/-- The text of a bit pattern. -/
def FloatFormat.text (f : FloatFormat) (bits : Nat) : String :=
  match f.classify bits with
  | .nan => "NaN"
  | .infinite negative => if negative then "-inf" else "inf"
  | .finite x =>
      let sign := if x.negative then "-" else ""
      if x.mantissa = 0 then sign ++ "0"
      else
        let d := Decimal.shortest f x
        sign ++ Decimal.positional d.1 d.2

end ExprTree
