import IntegerProgram.Model.Candidate

/-!
# Incumbents

The best candidate that a search has found so far. It is replaced only by a strictly better one, so of
several equally good candidates the first stays.
-/

namespace IntegerProgram

/-- The best candidate so far and how often there was a new one. -/
structure Incumbent (α : Type) where
  best : Option (Candidate α)
  updates : Nat
  deriving DecidableEq, Repr

namespace Incumbent

variable {α : Type}

/-- No candidate yet. -/
def empty : Incumbent α :=
  ⟨none, 0⟩

/-- The objective to beat; absent as long as there is no candidate. -/
def objective? (incumbent : Incumbent α) : Option α :=
  incumbent.best.map (·.objective)

variable [Scalar α]

/-- Whether a relaxed objective cannot beat the incumbent. -/
def dominates (incumbent : Incumbent α) (bound tol : α) : Bool :=
  Scalar.reaches bound incumbent.objective? tol

/-- Whether an objective is strictly better than the incumbent's. -/
def isImprovedBy (incumbent : Incumbent α) (objective : α) : Bool :=
  Scalar.isBelow objective incumbent.objective?

/-- The incumbent after a candidate was offered. -/
def offer (incumbent : Incumbent α) (candidate : Candidate α) : Incumbent α :=
  if incumbent.isImprovedBy candidate.objective then ⟨some candidate, incumbent.updates + 1⟩
  else incumbent

end Incumbent

end IntegerProgram
