import IntegerProgram.Scalar

/-!
# Intervals

The values a variable may take: a lower bound and, optionally, an upper bound.
-/

namespace IntegerProgram

/-- The values from `lower` up to `upper`, or without end if `upper` is absent. -/
structure Interval (α : Type) where
  lower : α
  upper : Option α
  deriving DecidableEq, Repr

namespace Interval

variable {α : Type}

/-- The values from `lower` on. -/
def atLeast (lower : α) : Interval α :=
  ⟨lower, none⟩

/-- The values from `lower` to `upper`. -/
def between (lower upper : α) : Interval α :=
  ⟨lower, some upper⟩

variable [Scalar α]

/-- The values from zero to one. -/
def unit : Interval α :=
  between 0 1

/-- The values from zero on. -/
def nonneg : Interval α :=
  atLeast 0

/-- Whether the lower bound lies above the upper bound. -/
def isEmpty (i : Interval α) : Bool :=
  i.upper.any fun u => decide (u < i.lower)

/-- Whether a value lies inside, up to a tolerance on either side. -/
def contains (i : Interval α) (v tol : α) : Bool :=
  decide (i.lower - tol ≤ v) && i.upper.all fun u => decide (v ≤ u + tol)

end Interval

end IntegerProgram
