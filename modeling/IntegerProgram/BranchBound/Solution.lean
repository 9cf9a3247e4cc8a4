import IntegerProgram.Model.Candidate

/-!
# Solutions

How a search ended and what it found.
-/

namespace IntegerProgram

/-- How a search ended. -/
inductive Status where
  | optimal
  | infeasible
  | nodeLimit
  | timeLimit
  deriving DecidableEq, Repr

/-- The result of a search. -/
structure Solution (α : Type) where
  status : Status
  best : Option (Candidate α)
  nodesExplored : Nat
  incumbentUpdates : Nat
  deriving DecidableEq, Repr

namespace Status

/-- Whether the incumbent is proven to be the best solution. -/
def isOptimal : Status → Bool
  | optimal => true
  | _ => false

/-- Whether the search stopped at a budget. -/
def isLimit : Status → Bool
  | nodeLimit => true
  | timeLimit => true
  | _ => false

end Status

namespace Solution

variable {α : Type}

/-- Whether there is a solution. -/
def hasSolution (solution : Solution α) : Bool :=
  solution.best.isSome

/-- Whether there is a solution and it is proven to be the best. -/
def isProvenOptimal (solution : Solution α) : Bool :=
  solution.status.isOptimal && solution.hasSolution

/-- The objective as an integer. -/
def integerObjective [Scalar α] (solution : Solution α) : Option Int :=
  solution.best.map fun candidate => Scalar.toWhole candidate.objective

end Solution

end IntegerProgram
