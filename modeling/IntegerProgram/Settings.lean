import IntegerProgram.LinearProgram.Tableau

/-!
# Settings

The budgets, tolerances and choices of a search for an integer solution.
-/

namespace IntegerProgram

/-- Which of the fractional variables is branched on. -/
inductive BranchingRule where
  /-- The first in index order. -/
  | firstFractional
  /-- The one farthest from the whole numbers, the first of several. -/
  | mostFractional
  deriving DecidableEq, Repr

/-- What is reported when a complete search finds no solution. -/
inductive NoSolutionPolicy where
  /-- An error. -/
  | error
  /-- The objective zero. -/
  | zero
  deriving DecidableEq, Repr

/-- The settings of a search. -/
structure Settings (α : Type) where
  /-- The largest number of nodes to explore. -/
  maxNodes : Nat
  /-- The time to spend, in milliseconds. -/
  timeLimit : Option Nat
  /-- Values that are not farther from a whole number count as whole. -/
  integralityTol : α
  /-- A relaxed objective that comes this close to the incumbent's, or exceeds it, is not pursued. -/
  pruneTol : α
  branchingRule : BranchingRule
  noSolution : NoSolutionPolicy
  /-- The settings of the relaxations. -/
  simplex : SimplexSettings α
  /-- Whether progress is told. -/
  verbose : Bool
  /-- Progress is told after each multiple of so many nodes, never for zero. -/
  progressEvery : Nat

namespace Settings

variable {α : Type} [Scalar α]

/-- The largest 64-bit count. -/
def largestCount : Nat :=
  18446744073709551615

/-- The settings used where nothing else is said: no budget short of the largest count. -/
def standard : Settings α where
  maxNodes := largestCount
  timeLimit := none
  integralityTol := 1e-5
  pruneTol := 1e-9
  branchingRule := .firstFractional
  noSolution := .error
  simplex := .standard
  verbose := false
  progressEvery := 100

/-- The standard settings with progress told after every node. -/
def chatty : Settings α :=
  { standard with verbose := true, progressEvery := 1 }

/-- The settings with a time limit in seconds, kept in whole milliseconds. -/
def withSeconds (settings : Settings α) (seconds : α) : Settings α :=
  { settings with timeLimit := some (Scalar.clampTo 0 largestCount (seconds * 1e3)).toNat }

/-- The settings with a node budget. -/
def withMaxNodes (settings : Settings α) (nodes : Nat) : Settings α :=
  { settings with maxNodes := nodes }

/-- The settings with a branching rule. -/
def withBranchingRule (settings : Settings α) (rule : BranchingRule) : Settings α :=
  { settings with branchingRule := rule }

/-- The settings with a policy for searches that find nothing. -/
def withNoSolution (settings : Settings α) (policy : NoSolutionPolicy) : Settings α :=
  { settings with noSolution := policy }

/-- Whether a time limit is reached after some milliseconds. -/
def isLate (settings : Settings α) (elapsed : Nat) : Bool :=
  settings.timeLimit.any (· ≤ elapsed)

end Settings

end IntegerProgram
