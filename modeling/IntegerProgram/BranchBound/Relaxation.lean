import IntegerProgram.Error

/-!
# Relaxations

A relaxation of a model forgets that variables must be whole numbers. An oracle answers what the
relaxation over a box is; it may keep a state of its own. The relaxation that `Model.relax` solves by
the simplex method is one such oracle.
-/

namespace IntegerProgram

/-- The relaxation of a model over a box. -/
inductive Relaxation (α : Type) where
  | optimal (objective : α) (values : Array α)
  | infeasible

/-- The answer to a question about a relaxation, and the steps of the simplex method behind it. -/
structure Reply (α : Type) where
  answer : Except Error (Relaxation α)
  journal : List (Step α)

/-- Answers questions about the relaxation of one model. -/
abbrev Oracle (σ α : Type) := Box α → σ → Reply α × σ

namespace Relaxation

variable {α : Type} {n : Nat}

/-- What an outcome of the simplex method says about a relaxation. -/
def ofOutcome (pivots : Nat) : Outcome α n → Except Error (Relaxation α)
  | .optimal x objective => .ok (.optimal objective x.toArray)
  | .infeasible => .ok .infeasible
  | .unbounded => .error (.oracle .unbounded)
  | .pivotLimit => .error (.oracle (.pivotLimit pivots))

end Relaxation

namespace Model

variable {α : Type} [Scalar α] {m n : Nat}

/-- The linear problem of minimising the costs over a box. -/
def linearProblem (model : Model α m n) (box : Box α) : LinearProblem α m n where
  matrix := model.matrix
  cost := model.cost.toArray
  rhs := model.target.toArray
  bounds := box

/-- The relaxation over a box, solved by the simplex method. -/
def relax (model : Model α m n) (settings : SimplexSettings α) (box : Box α) : Reply α :=
  let report := (model.linearProblem box).solve settings
  { answer :=
      match report.result with
      | .ok outcome => Relaxation.ofOutcome report.iterations outcome
      | .error error => .error (.linear error)
    journal := report.journal }

/-- The oracle that solves every relaxation by the simplex method. -/
def simplexOracle (model : Model α m n) (settings : SimplexSettings α) : Oracle Unit α :=
  fun box state => (model.relax settings box, state)

end Model

end IntegerProgram
