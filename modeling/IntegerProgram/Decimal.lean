import IntegerProgram.Scalar.Binary64

/-!
# Decimal texts

Decimal texts of a binary64 number, computed exactly from its significand and exponent:

* `Decimal.shortest`: the fewest digits that read back as the same number. The numbers that read back
  form an interval around it, which reaches half way to either neighbour; its ends belong to it when
  the significand is even.
* `Decimal.scientific` and `Decimal.fixed`: a given number of places behind the point, with an exponent
  and without, a half going to the even digit.

A `Layout` says how shortest digits are set: whether a whole number keeps a point, and which numbers
are written without an exponent.
-/

namespace IntegerProgram

/-- The number `digits * 10 ^ exponent`. -/
structure Decimal where
  digits : Nat
  exponent : Int
  deriving DecidableEq, Repr

namespace Decimal

/-- How many decimal digits a natural number has. -/
def digitCount (n : Nat) : Nat :=
  (Nat.toDigits 10 n).length

/-- The power of ten of the leading digit of `num / den`. -/
def leadingPower (num den : Nat) : Int :=
  if den ≤ num then (digitCount (num / den) : Int) - 1
  else -(digitCount ((den - 1) / num) : Int)

/-- The numerator of `num / 10 ^ k` over the denominator that `scaleDen` gives. -/
def scaleNum (k : Int) (num : Nat) : Nat :=
  num * Nat.pow 10 (-k).toNat

/-- The denominator that goes with `scaleNum`. -/
def scaleDen (k : Int) (den : Nat) : Nat :=
  den * Nat.pow 10 k.toNat

/-- The numbers that read back as one binary64 number, over a common denominator. -/
structure Neighbourhood where
  low : Nat
  value : Nat
  high : Nat
  den : Nat
  /-- Whether the ends belong to it. -/
  closed : Bool

namespace Neighbourhood

/-- The numbers that read back as a positive binary64 number. The step below a power of two is half as
wide as the one above it, the smallest normal number apart. -/
def ofNumber (b : BinaryNumber) : Neighbourhood :=
  let unit := Nat.pow 2 (b.exponent - 2).toNat
  let atPower := b.significand = Nat.pow 2 Binary64.fractionBits &&
    decide ((1 - (Binary64.bias + Binary64.fractionBits : Nat) : Int) < b.exponent)
  { low := (4 * b.significand - (if atPower then 1 else 2)) * unit
    value := 4 * b.significand * unit
    high := (4 * b.significand + 2) * unit
    den := Nat.pow 2 (2 - b.exponent).toNat
    closed := b.significand % 2 = 0 }

/-- Whether `c * 10 ^ k` reads back. -/
def holds (v : Neighbourhood) (k : Int) (c : Nat) : Bool :=
  let point := c * scaleDen k v.den
  if v.closed then decide (scaleNum k v.low ≤ point) && decide (point ≤ scaleNum k v.high)
  else decide (scaleNum k v.low < point) && decide (point < scaleNum k v.high)

/-- The multiple of `10 ^ k` next to the value that reads back: the nearer of two, the upper of two
equally near ones. -/
def onGrid? (v : Neighbourhood) (k : Int) : Option Nat :=
  let num := scaleNum k v.value
  let den := scaleDen k v.den
  let below := num / den
  match v.holds k below, v.holds k (below + 1) with
  | true, true => if 2 * (num % den) < den then some below else some (below + 1)
  | true, false => some below
  | false, true => some (below + 1)
  | false, false => none

end Neighbourhood

/-- The decimal without zeros at the end. -/
def stripZeros (d : Decimal) : Decimal :=
  let text := Nat.toDigits 10 d.digits
  let zeros := (text.reverse.takeWhile (· == '0')).length
  ⟨d.digits / Nat.pow 10 zeros, d.exponent + zeros⟩

/-- The shortest decimal that reads back as a positive binary64 number. Seventeen digits always do. -/
def shortest (b : BinaryNumber) : Decimal :=
  let v := Neighbourhood.ofNumber b
  let power := leadingPower v.value v.den
  let grids := (List.range 17).map fun (places : Nat) => power - (places : Int)
  match grids.findSome? fun k => (v.onGrid? k).map fun c => Decimal.mk c k with
  | some d => d.stripZeros
  | none => ⟨v.value / v.den, 0⟩

/-- The quotient rounded to the nearest natural number, a half going to the even one. -/
def roundDiv (num den : Nat) : Nat :=
  let below := num / den
  let rest := 2 * (num % den)
  if rest < den || (rest == den && below % 2 == 0) then below else below + 1

/-- A positive binary64 number rounded to one digit in front of the point and `places` behind it. -/
def rounded (places : Nat) (b : BinaryNumber) : Decimal :=
  let num := b.significand * Nat.pow 2 b.exponent.toNat
  let den := Nat.pow 2 (-b.exponent).toNat
  let k := leadingPower num den - (places : Int)
  let digits := roundDiv (scaleNum k num) (scaleDen k den)
  if digits = Nat.pow 10 (places + 1) then ⟨Nat.pow 10 places, k + 1⟩ else ⟨digits, k⟩

/-- How shortest digits are set. -/
structure Layout where
  /-- Whether a whole number without exponent ends in a point and a zero. -/
  keepPoint : Bool
  /-- Whether a number with this power of ten at its leading digit is written without exponent. -/
  isPositional : Int → Bool

namespace Layout

/-- Never an exponent, and no point in whole numbers. -/
def plain : Layout :=
  ⟨false, fun _ => true⟩

/-- An exponent from `10 ^ 16` on and below `10 ^ -4`, and a point in all other numbers. -/
def marked : Layout :=
  ⟨true, fun power => decide (-4 ≤ power) && decide (power < 16)⟩

end Layout

/-- The text of a sign. -/
def signText (negative : Bool) : String :=
  if negative then "-" else ""

/-- So many zeros. -/
def zeros (count : Int) : String :=
  String.ofList (List.replicate count.toNat '0')

/-- The decimal written without exponent. -/
def positional (layout : Layout) (d : Decimal) : String :=
  let text := Nat.toDigits 10 d.digits
  let point := text.length + d.exponent
  if 0 ≤ d.exponent then
    String.ofList text ++ zeros d.exponent ++ (if layout.keepPoint then ".0" else "")
  else if 0 < point then
    String.ofList (text.take point.toNat) ++ "." ++ String.ofList (text.drop point.toNat)
  else "0." ++ zeros (-point) ++ String.ofList text

/-- The decimal written with one digit in front of the point, which is left out when no digit follows,
and an exponent. -/
def exponential (d : Decimal) : String :=
  let text := Nat.toDigits 10 d.digits
  let power := d.exponent + text.length - 1
  let places := String.ofList (text.drop 1)
  String.ofList (text.take 1) ++ (if places.isEmpty then "" else "." ++ places) ++ s!"e{power}"

/-- The shortest text of a number in a layout. -/
def text (layout : Layout) (x : Float) : String :=
  match Binary64.nonFinite? x with
  | some kind => kind.text
  | none =>
    let b := Binary64.number x
    let digits := if b.significand = 0 then ⟨0, 0⟩ else shortest b
    let power := digits.exponent + digitCount digits.digits - 1
    signText b.negative ++
      if layout.isPositional power then positional layout digits else exponential digits

/-- The text of a number with one digit in front of the point, `places` behind it, and an exponent. -/
def scientific (places : Nat) (x : Float) : String :=
  match Binary64.nonFinite? x with
  | some kind => kind.text
  | none =>
    let b := Binary64.number x
    signText b.negative ++
      if b.significand = 0 then "0." ++ zeros places ++ "e0" else exponential (rounded places b)

/-- The text of a number with `places` digits behind the point and no exponent, a half going to the even
digit. -/
def fixed (places : Nat) (x : Float) : String :=
  match Binary64.nonFinite? x with
  | some kind => kind.text
  | none =>
    let b := Binary64.number x
    let digits := roundDiv (b.significand * Nat.pow 2 b.exponent.toNat * Nat.pow 10 places)
      (Nat.pow 2 (-b.exponent).toNat)
    let text := Nat.toDigits 10 digits
    let padded := List.replicate (places + 1 - text.length) '0' ++ text
    signText b.negative ++ String.ofList (padded.take (padded.length - places)) ++
      (if places = 0 then "" else "." ++ String.ofList (padded.drop (padded.length - places)))

end Decimal

end IntegerProgram
