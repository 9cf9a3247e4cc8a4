import IntegerProgram.Fault
import IntegerProgram.Scalar

/-!
# Candidates

A relaxed point whose integer variables are nearly whole becomes a candidate: these variables are
rounded, and the cost is computed anew from the rounded point.
-/

namespace IntegerProgram

/-- A rounded point and its cost. -/
structure Candidate (α : Type) where
  objective : α
  x : Array α
  deriving DecidableEq, Repr

namespace Candidate

variable {α : Type} [Scalar α]

/-- The nearest whole number, never a negative zero. -/
def wholeNumber (v : α) : α :=
  Scalar.round v + 0

/-- The point with the listed variables rounded. -/
def roundAt (x : Array α) (integers : List Nat) : Except Fault (Array α) :=
  integers.foldlM (Fault.modify wholeNumber) x

/-- The candidate of a point; costs and point must have one length. -/
def ofPoint (point : Array α) (integers : List Nat) (cost : Array α) :
    Except Fault (Candidate α) := do
  if point.size ≠ cost.size then throw (.wrongLength cost.size point.size)
  let x ← roundAt point integers
  return ⟨Scalar.dot cost.toList x.toList, x⟩

/-- All variables as integers. -/
def wholeValues (c : Candidate α) : List Int :=
  c.x.toList.map Scalar.toWhole

end Candidate

end IntegerProgram
