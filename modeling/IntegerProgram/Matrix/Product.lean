import IntegerProgram.Matrix.Sparse

/-!
# Products with sparse matrices

The product `alpha * A * x + beta * y` of a matrix with a vector, scattered cell by cell, and the
residual of an equation system. Each comes in a form whose lengths agree by type and in one that
faults on lengths that do not.
-/

namespace IntegerProgram.SparseMatrix

variable {α : Type} [Scalar α] {m n : Nat}

/-- The vector scaled by `beta`: cleared for zero and left alone for one. -/
def scaled (beta : α) (y : Vector α m) : Vector α m :=
  if beta == 0 then Vector.replicate m 0
  else if beta == 1 then y
  else y.map (· * beta)

/-- Adds the contribution `alpha * a_ij * x_j` of one cell to entry `i`. -/
def scatter (alpha : α) (x : Vector α n) (y : Vector α m) (cell : Cell α m n) : Vector α m :=
  Vectors.replaceAt y cell.row (y.get cell.row + alpha * cell.value * x.get cell.col)

/-- The combination `alpha * A * x + beta * y`; nothing is added when `alpha` is zero. -/
def mulAdd (a : SparseMatrix α m n) (x : Vector α n) (y : Vector α m) (alpha beta : α) : Vector α m :=
  if alpha == 0 then scaled beta y
  else a.cells.foldl (scatter alpha x) (scaled beta y)

/-- The largest absolute entry of `A * x - b`. -/
def residual (a : SparseMatrix α m n) (x : Vector α n) (b : Vector α m) : α :=
  Scalar.maxAbs (a.mulAdd x b 1 (-1)).toList

/-- The combination `alpha * A * x + beta * y`, or the fault of a vector of another length. -/
def mulAdd? (a : SparseMatrix α m n) (x y : Array α) (alpha beta : α) : Except Fault (Vector α m) := do
  return a.mulAdd (← Fault.vector n x) (← Fault.vector m y) alpha beta

/-- The largest absolute entry of `A * x - b`, or the fault of a vector of another length. -/
def residual? (a : SparseMatrix α m n) (x b : Array α) : Except Fault α := do
  return a.residual (← Fault.vector n x) (← Fault.vector m b)

end IntegerProgram.SparseMatrix
