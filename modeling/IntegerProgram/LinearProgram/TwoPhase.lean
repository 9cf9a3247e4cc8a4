import IntegerProgram.LinearProgram.StandardForm

/-!
# The two-phase simplex method

The first phase minimises the sum of the artificial columns. What is left of them in the basis is
then pivoted out where a row allows it; the other rows are redundant. The second phase minimises the
costs, and artificial columns may not enter any more. Both phases share one budget of pivots, to which
the pivots between them do not count.

A solve answers with a report: the outcome or an error, and the journal of its steps.
-/

namespace IntegerProgram

/-- What the simplex method finds out about a linear program. -/
inductive Outcome (α : Type) (n : Nat) where
  | optimal (x : Vector α n) (objective : α)
  | infeasible
  | unbounded
  | pivotLimit

/-- Why the simplex method gives no outcome. -/
inductive LinearError where
  /-- The problem as stated is no linear program. -/
  | invalid (defect : Defect)
  /-- The sum of the artificial columns, which is never negative, seemed to fall without end. -/
  | infeasibilityUnbounded
  deriving DecidableEq, Repr

/-- A step worth telling. -/
inductive Step (α : Type) where
  /-- A counted pivot, with the number of counted pivots before it. -/
  | pivot (count enters leaves row : Nat)
  /-- The end of the first phase after so many pivots. -/
  | phaseOne (pivots : Nat) (infeasibility : α)
  /-- A row in which no real column can become basic. -/
  | redundantRow (row : Nat)
  /-- The end of the second phase after so many pivots in all. -/
  | phaseTwo (pivots : Nat) (objective : α)

/-- The answer to a solve and the steps that led to it. -/
structure LinearReport (α : Type) (n : Nat) where
  result : Except LinearError (Outcome α n)
  journal : List (Step α)

namespace Outcome

variable {α : Type} {n : Nat}

/-- The outcome in words. -/
def describe : Outcome α n → String
  | optimal _ _ => "optimal"
  | infeasible => "infeasible"
  | unbounded => "unbounded"
  | pivotLimit => "iteration limit"

end Outcome

namespace LinearError

/-- The wording of an error. -/
def message : LinearError → String
  | invalid defect => "Invalid problem: " ++ defect.message
  | infeasibilityUnbounded => "Numerical failure: phase 1 objective reported unbounded"

end LinearError

namespace Step

variable {α : Type}

/-- The entering column and the row of a counted pivot. -/
def pivot? : Step α → Option (Nat × Nat)
  | pivot _ enters _ row => some (enters, row)
  | _ => none

/-- The steps of a run of pivots that follows `count` counted ones. -/
def ofPivots {m n : Nat} (count : Nat) (pivots : List (Pivot m n)) : List (Step α) :=
  (pivots.zipIdx count).map fun (p, k) => .pivot k p.enters p.leaves p.row

end Step

namespace LinearReport

variable {α : Type} {n : Nat}

/-- The counted pivots, as entering column and row. -/
def pivots (r : LinearReport α n) : List (Nat × Nat) :=
  r.journal.filterMap Step.pivot?

/-- The number of counted pivots. -/
def iterations (r : LinearReport α n) : Nat :=
  r.pivots.length

end LinearReport

namespace LinearProgram

variable {α : Type} [Scalar α] {m n : Nat}

/-- The first phase: all columns may enter. -/
def phaseOne (p : LinearProgram α m n) (settings : SimplexSettings α) :
    Phase α p.rowCount p.columnCount :=
  (p.standardForm.withObjective p.infeasibilityCost).run p.columnCount settings settings.maxPivots

/-- The tableau with which the second phase starts, and the rows found redundant on the way. -/
def betweenPhases (p : LinearProgram α m n) (settings : SimplexSettings α)
    (t : Tableau α p.rowCount p.columnCount) :
    Tableau α p.rowCount p.columnCount × List (Fin p.rowCount) :=
  let (cleared, redundant) := t.expel p.realCount settings.pivotTol
  (cleared.withObjective p.realCost, redundant)

/-- The second phase: only real columns may enter, and the budget is what the first phase left. -/
def phaseTwo (p : LinearProgram α m n) (settings : SimplexSettings α) (spent : Nat)
    (t : Tableau α p.rowCount p.columnCount) : Phase α p.rowCount p.columnCount :=
  t.run p.realCount settings (settings.maxPivots - spent)

/-- What follows a first phase that ended in the tableau `t` after `spent` pivots. -/
def solveFrom (p : LinearProgram α m n) (settings : SimplexSettings α) (spent : Nat)
    (t : Tableau α p.rowCount p.columnCount) : LinearReport α n :=
  let ended := Step.phaseOne spent t.objectiveValue
  if settings.feasibilityTol < t.objectiveValue then ⟨.ok .infeasible, [ended]⟩
  else
    let (start, redundant) := p.betweenPhases settings t
    let two := p.phaseTwo settings spent start
    let journal := ended :: redundant.map (fun row => .redundantRow row.val) ++
      Step.ofPivots spent two.pivots
    match two.ending with
    | .unbounded => ⟨.ok .unbounded, journal⟩
    | .outOfPivots => ⟨.ok .pivotLimit, journal⟩
    | .optimal =>
      let x := p.point two.tableau
      let value := p.objective x
      ⟨.ok (.optimal x value), journal ++ [.phaseTwo (spent + two.pivots.length) value]⟩

/-- Solves a linear program; one with an empty interval is infeasible without a pivot. -/
def solve (p : LinearProgram α m n) (settings : SimplexSettings α) : LinearReport α n :=
  if p.bounds.any Interval.isEmpty then ⟨.ok .infeasible, []⟩
  else
    let one := p.phaseOne settings
    let journal := Step.ofPivots 0 one.pivots
    match one.ending with
    | .unbounded => ⟨.error .infeasibilityUnbounded, journal⟩
    | .outOfPivots => ⟨.ok .pivotLimit, journal⟩
    | .optimal =>
      let rest := p.solveFrom settings one.pivots.length one.tableau
      ⟨rest.result, journal ++ rest.journal⟩

end LinearProgram

namespace LinearProblem

variable {α : Type} [Scalar α] {m n : Nat}

/-- Solves a stated linear program, once it is found free of defects. -/
def solve (p : LinearProblem α m n) (settings : SimplexSettings α) : LinearReport α n :=
  match p.check with
  | .error defect => ⟨.error (.invalid defect), []⟩
  | .ok program => program.solve settings

end LinearProblem

end IntegerProgram
