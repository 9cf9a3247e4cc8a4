import IntegerProgram.LinearProgram.TwoPhase
import IntegerProgram.Model.Basic

/-!
# Errors

The causes for which an integer program gets no answer, and their wording.
-/

namespace IntegerProgram

/-- Why a relaxation was not solved. -/
inductive OracleFailure where
  | unbounded
  | pivotLimit (pivots : Nat)
  | wrongLength (values vars : Nat)
  | other (reason : String)
  deriving DecidableEq, Repr

/-- Why an integer program gets no answer. -/
inductive Error where
  /-- The parts of the model do not fit together. -/
  | malformedModel (defect : ModelDefect)
  /-- There is nothing to select from. -/
  | noColumns
  /-- The search is complete and found no solution. -/
  | noSolution
  /-- A relaxation was not solved. -/
  | oracle (failure : OracleFailure)
  /-- The node budget was spent; the best objective found is not proven. -/
  | nodeLimit (incumbent : Option Int)
  /-- The time was spent; the best objective found is not proven. -/
  | timeLimit (incumbent : Option Int)
  /-- A relaxation was no linear program, or its solution failed. -/
  | linear (error : LinearError)
  /-- A request outside the domain of an operation. -/
  | fault (fault : Fault)
  deriving DecidableEq, Repr

namespace Fault

/-- The wording of a fault. -/
def message : Fault → String
  | outOfRange index length => s!"index {index} in a sequence of {length} entries"
  | wrongLength expected found => s!"{found} entries in place of {expected}"
  | raggedRows expected => s!"rows that have not all {expected} entries"
  | overflow total => s!"total {total} outside 64 bits"

end Fault

namespace OracleFailure

/-- The wording of a failure. -/
def message : OracleFailure → String
  | unbounded => "relaxation unbounded"
  | pivotLimit pivots => s!"relaxation stopped after {pivots} pivots"
  | wrongLength values vars => s!"relaxation returned {values} values for {vars} variables"
  | other reason => reason

end OracleFailure

namespace Error

/-- An objective that may be missing, in words. -/
def objectiveText : Option Int → String
  | some objective => s!"Some({objective})"
  | none => "None"

/-- The wording of an error. -/
def message : Error → String
  | malformedModel defect => "Malformed model: " ++ defect.message
  | noColumns => "Malformed input: matrix has no columns to select"
  | noSolution => "No integer solution found"
  | oracle failure => "Oracle failed: " ++ failure.message
  | nodeLimit incumbent =>
    s!"Node limit exceeded (best objective found: {objectiveText incumbent})"
  | timeLimit incumbent =>
    s!"Time limit exceeded (best objective found: {objectiveText incumbent})"
  | linear error => "LP error: " ++ error.message
  | fault f => "Fault: " ++ f.message

/-- The best objective known when a budget was spent. -/
def incumbent? : Error → Option Int
  | nodeLimit incumbent => incumbent
  | timeLimit incumbent => incumbent
  | _ => none

/-- A result with its fault read as an error. -/
def ofFault {β : Type} (result : Except Fault β) : Except Error β :=
  result.mapError fault

end Error

end IntegerProgram
