import IntegerProgram.Scalar

/-!
# Exact scalars

The rational numbers as a number system without rounding: every value is finite and there is no
outermost one.
-/

namespace IntegerProgram.Rational

/-- The nearest whole number, a half going away from zero. -/
def round (q : Rat) : Rat :=
  if 0 ≤ q then ((q + 1 / 2).floor : Int) else ((q - 1 / 2).ceil : Int)

/-- The whole part, forced into the range from `lo` to `hi`. -/
def clampTo (lo hi : Int) (q : Rat) : Int :=
  max lo (min hi (q.num.tdiv q.den))

instance : Scalar Rat where
  toMax := Rat.instMax
  toMin := Rat.instMin
  zero := 0
  one := 1
  decidableLT := inferInstance
  decidableLE := inferInstance
  abs := Rat.abs
  round := round
  floor q := (q.floor : Int)
  ceil q := (q.ceil : Int)
  nonFinite? _ := none
  clampTo := clampTo
  top? := none

end IntegerProgram.Rational
