import IntegerProgram.Scalar

/-!
# Rounded scalars

The binary64 numbers as a number system. A finite number is a signed significand times a power of
two, read off the bits; rounding to whole numbers clears the bits behind the point, so all of it can
be computed inside the logic. The larger and the smaller of two values ignore an undefined operand
and keep the second of two equal ones.
-/

namespace IntegerProgram

/-- A number `± significand * 2 ^ exponent`. -/
structure BinaryNumber where
  negative : Bool
  significand : Nat
  exponent : Int
  deriving DecidableEq, Repr

namespace BinaryNumber

/-- The whole part, rounded toward zero. -/
def wholePart (b : BinaryNumber) : Int :=
  let size : Nat :=
    if 0 ≤ b.exponent then b.significand <<< b.exponent.toNat
    else b.significand >>> (-b.exponent).toNat
  if b.negative then -size else size

end BinaryNumber

namespace Binary64

/-- The number of bits behind the leading one of a significand. -/
def fractionBits : Nat :=
  52

/-- The biased exponent of the number one. -/
def bias : Nat :=
  1023

/-- The biased exponent, eleven bits. -/
def exponentField (x : Float) : Nat :=
  ((x.toBits >>> 52) &&& 0x7ff).toNat

/-- The fraction, fifty-two bits. -/
def fractionField (x : Float) : Nat :=
  (x.toBits &&& 0xfffffffffffff).toNat

/-- Whether the sign bit is set. -/
def isNegative (x : Float) : Bool :=
  x.toBits >>> 63 == 1

/-- The way in which a number is not finite: all exponent bits are set, and the fraction tells an
infinity from an undefined value. -/
def nonFinite? (x : Float) : Option NonFinite :=
  if exponentField x ≠ 0x7ff then none
  else if fractionField x ≠ 0 then some .nan
  else if isNegative x then some .negInfinity
  else some .infinity

/-- The value of a finite number. -/
def number (x : Float) : BinaryNumber :=
  let e := exponentField x
  let leading := if e = 0 then 0 else Nat.pow 2 fractionBits
  ⟨isNegative x, leading + fractionField x, (max e 1 : Nat) - (bias + fractionBits : Nat)⟩

/-- The whole part as a number of the same sign, rounded toward zero. -/
def truncate (x : Float) : Float :=
  let e := exponentField x
  if e < bias then Float.ofBits (x.toBits &&& 0x8000000000000000)
  else if bias + fractionBits ≤ e then x
  else Float.ofBits ((x.toBits >>> (bias + fractionBits - e).toUInt64) <<<
    (bias + fractionBits - e).toUInt64)

/-- The nearest whole number, a half going away from zero. -/
def round (x : Float) : Float :=
  let t := truncate x
  if 0.5 ≤ (x - t).abs then (if x < 0 then t - 1 else t + 1) else t

/-- The largest whole number that is not above. -/
def floor (x : Float) : Float :=
  let t := truncate x
  if t ≤ x then t else t - 1

/-- The smallest whole number that is not below. -/
def ceil (x : Float) : Float :=
  let t := truncate x
  if x ≤ t then t else t + 1

/-- The larger of two numbers: an undefined operand is ignored and the second of two equals is kept. -/
def larger (a b : Float) : Float :=
  if b.isNaN || decide (b < a) then a else b

/-- The smaller of two numbers: an undefined operand is ignored and the second of two equals is
kept. -/
def smaller (a b : Float) : Float :=
  if b.isNaN || decide (a < b) then a else b

/-- The whole part, forced into the range from `lo` to `hi`; an undefined value counts as zero. -/
def clampTo (lo hi : Int) (x : Float) : Int :=
  match nonFinite? x with
  | some .nan => 0
  | some .infinity => hi
  | some .negInfinity => lo
  | none => max lo (min hi (number x).wholePart)

instance : Scalar Float where
  zero := 0
  one := 1
  max := larger
  min := smaller
  decidableLT := inferInstance
  decidableLE := inferInstance
  abs := Float.abs
  round := round
  floor := floor
  ceil := ceil
  nonFinite? := nonFinite?
  clampTo := clampTo
  top? := some (Float.ofBits 0x7ff0000000000000)

end Binary64

end IntegerProgram
