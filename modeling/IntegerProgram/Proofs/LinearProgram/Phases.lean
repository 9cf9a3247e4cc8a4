import Mathlib
import IntegerProgram.LinearProgram.TwoPhase

/-!
# The ways to an answer

What a solve of a linear program can do, for every number system:

* `LinearProgram.secondPhase` is the second phase as it follows on the first one.
* `LinearProgram.Answers` lists the ways to an answer, each with what the two phases said on it;
  `LinearProgram.answers_solve` says that there are no others.
-/

namespace IntegerProgram

deriving instance DecidableEq for Outcome

namespace LinearProgram

variable {α : Type} [Scalar α] {m n : Nat}

/-- The second phase of a solve: it starts where the first one has left off. -/
def secondPhase (p : LinearProgram α m n) (settings : SimplexSettings α) :
    Phase α p.rowCount p.columnCount :=
  p.phaseTwo settings (p.phaseOne settings).pivots.length
    (p.betweenPhases settings (p.phaseOne settings).tableau).1

/-- A solve comes to its second phase: no interval is empty, and the first phase has ended at a sum of
artificials that counts as zero. -/
structure EntersSecond (p : LinearProgram α m n) (settings : SimplexSettings α) : Prop where
  nonempty : p.bounds.any Interval.isEmpty = false
  ended : (p.phaseOne settings).ending = .optimal
  within : ¬ settings.feasibilityTol < (p.phaseOne settings).tableau.objectiveValue

/-- The ways to the answer of a solve. -/
inductive Answers (p : LinearProgram α m n) (settings : SimplexSettings α) :
    Except LinearError (Outcome α n) → Prop
  | emptyInterval (empty : p.bounds.any Interval.isEmpty = true) :
      Answers p settings (.ok .infeasible)
  | numerical (nonempty : p.bounds.any Interval.isEmpty = false)
      (ended : (p.phaseOne settings).ending = .unbounded) :
      Answers p settings (.error .infeasibilityUnbounded)
  | limitOne (nonempty : p.bounds.any Interval.isEmpty = false)
      (ended : (p.phaseOne settings).ending = .outOfPivots) :
      Answers p settings (.ok .pivotLimit)
  | infeasible (nonempty : p.bounds.any Interval.isEmpty = false)
      (ended : (p.phaseOne settings).ending = .optimal)
      (positive : settings.feasibilityTol < (p.phaseOne settings).tableau.objectiveValue) :
      Answers p settings (.ok .infeasible)
  | unbounded (entered : p.EntersSecond settings)
      (ended : (p.secondPhase settings).ending = .unbounded) : Answers p settings (.ok .unbounded)
  | limitTwo (entered : p.EntersSecond settings)
      (ended : (p.secondPhase settings).ending = .outOfPivots) :
      Answers p settings (.ok .pivotLimit)
  | optimal (entered : p.EntersSecond settings)
      (ended : (p.secondPhase settings).ending = .optimal) :
      Answers p settings (.ok (.optimal (p.point (p.secondPhase settings).tableau)
        (p.objective (p.point (p.secondPhase settings).tableau))))

/-- What follows on the first phase, once the second one is entered. -/
lemma EntersSecond.answers {p : LinearProgram α m n} {settings : SimplexSettings α}
    (entered : p.EntersSecond settings) : p.Answers settings
      (p.solveFrom settings (p.phaseOne settings).pivots.length
        (p.phaseOne settings).tableau).result := by
  have hphase : p.phaseTwo settings (p.phaseOne settings).pivots.length
      (p.betweenPhases settings (p.phaseOne settings).tableau).1 = p.secondPhase settings := rfl
  unfold solveFrom
  rw [if_neg entered.within]
  simp only [hphase]
  cases hended : (p.secondPhase settings).ending with
  | unbounded => exact .unbounded entered hended
  | outOfPivots => exact .limitTwo entered hended
  | optimal => exact .optimal entered hended

/-- An answer is reached in one of the listed ways. -/
lemma answers_solve (p : LinearProgram α m n) (settings : SimplexSettings α) :
    p.Answers settings (p.solve settings).result := by
  unfold solve
  split
  · rename_i hempty
    exact .emptyInterval hempty
  · rename_i hempty
    have nonempty : p.bounds.any Interval.isEmpty = false := Bool.eq_false_iff.2 hempty
    cases hended : (p.phaseOne settings).ending with
    | unbounded =>
      simp only [hended]
      exact .numerical nonempty hended
    | outOfPivots =>
      simp only [hended]
      exact .limitOne nonempty hended
    | optimal =>
      simp only [hended]
      by_cases positive : settings.feasibilityTol < (p.phaseOne settings).tableau.objectiveValue
      · unfold solveFrom
        rw [if_pos positive]
        exact .infeasible nonempty hended positive
      · exact EntersSecond.answers ⟨nonempty, hended, positive⟩

end LinearProgram

end IntegerProgram
