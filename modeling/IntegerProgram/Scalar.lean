/-!
# Scalars

The number systems the programs of this library compute with. A `Scalar` offers arithmetic, the two
comparisons, rounding to whole numbers and a test for values that are no finite numbers; it promises
no law, so every definition above it also makes sense for rounded arithmetic. Two instances follow in
`Scalar/Binary64` and `Scalar/Rational`.

The file also holds the sum and the inner product every program uses, and the reading of an absent
limit as the outermost value of the number system.
-/

namespace IntegerProgram

/-- The ways in which a value can fail to be a finite number. -/
inductive NonFinite where
  | nan
  | infinity
  | negInfinity
  deriving DecidableEq, Repr

namespace NonFinite

/-- The text of a value that is no finite number. -/
def text : NonFinite → String
  | nan => "NaN"
  | infinity => "inf"
  | negInfinity => "-inf"

end NonFinite

/-- A number system with the operations of linear and integer programming. -/
class Scalar (α : Type) extends Add α, Sub α, Mul α, Div α, Neg α, Zero α, One α, OfScientific α,
    LT α, LE α, BEq α, Max α, Min α where
  /-- The strict comparison is decided. -/
  decidableLT : DecidableLT α
  /-- The weak comparison is decided. -/
  decidableLE : DecidableLE α
  /-- The absolute value. -/
  abs : α → α
  /-- The nearest whole number, a half going away from zero. -/
  round : α → α
  /-- The largest whole number that is not above. -/
  floor : α → α
  /-- The smallest whole number that is not below. -/
  ceil : α → α
  /-- Tells in which way the value is no finite number; `none` for a finite one. -/
  nonFinite? : α → Option NonFinite
  /-- The whole part, forced into the range from the first to the second integer; an undefined value
  counts as zero. -/
  clampTo : Int → Int → α → Int
  /-- The value above all others, if the number system has one. -/
  top? : Option α

namespace Scalar

variable {α : Type} [Scalar α]

instance (a b : α) : Decidable (a < b) :=
  decidableLT a b

instance (a b : α) : Decidable (a ≤ b) :=
  decidableLE a b

/-- Whether the value is a finite number. -/
def isFinite (a : α) : Bool :=
  (nonFinite? a).isNone

/-- Whether the value is undefined. -/
def isNaN (a : α) : Bool :=
  nonFinite? a == some .nan

/-- The value below all others, if the number system has one. -/
def bottom? : Option α :=
  (top? : Option α).map (- ·)

/-- The distance of a value to the nearest whole number. -/
def fractionality (a : α) : α :=
  abs (a - round a)

/-- The least 64-bit signed integer. -/
def wholeMin : Int :=
  -9223372036854775808

/-- The greatest 64-bit signed integer. -/
def wholeMax : Int :=
  9223372036854775807

/-- The nearest whole number as a 64-bit signed integer; values beyond the range become its ends. -/
def toWhole (a : α) : Int :=
  clampTo wholeMin wholeMax (round a)

/-- The sum from left to right, started at the negated zero: the one start that leaves the sign of a
zero alone. -/
def sum (values : List α) : α :=
  values.foldl (· + ·) (-0)

/-- The inner product; the longer list is cut to the length of the shorter. -/
def dot (coefficients values : List α) : α :=
  sum (List.zipWith (· * ·) coefficients values)

/-- The largest absolute value of a list, zero for the empty list. -/
def maxAbs (values : List α) : α :=
  values.foldl (fun largest v => max largest (abs v)) 0

/-- Whether `a` lies below a limit; an absent limit is the top of the number system. -/
def isBelow (a : α) (limit : Option α) : Bool :=
  (limit <|> top?).all fun l => decide (a < l)

/-- Whether `a` reaches a limit up to a tolerance; an absent limit is the top of the number system. -/
def reaches (a : α) (limit : Option α) (tol : α) : Bool :=
  (limit <|> top?).any fun l => decide (l - tol ≤ a)

/-- Whether `a` is not below a floor; an absent floor is the bottom of the number system. -/
def isAbove (a : α) (least : Option α) : Bool :=
  (least <|> bottom?).all fun l => decide (l ≤ a)

/-- Whether `a` is not above a cap; without a cap every value passes. -/
def isWithin (a : α) (cap : Option α) : Bool :=
  cap.all fun u => decide (a ≤ u)

/-- The larger of a value and a floor; an absent floor is the bottom of the number system. -/
def raise (a : α) (least : Option α) : α :=
  match least <|> bottom? with
  | some l => max a l
  | none => a

end Scalar

end IntegerProgram
