import IntegerProgram.Fault
import IntegerProgram.Scalar
import IntegerProgram.Vectors

/-!
# Sparse matrices

A matrix is kept column by column; a column lists its stored cells, the row indices strictly
ascending. A stored cell may hold zero. Matrices are built from cells given in any order, where the
values given for one cell are added from left to right; from full rows; from a diagonal; or by
placing two matrices side by side. The views are the list of stored cells, the three arrays of the
compressed column form, and the full rows.
-/

namespace IntegerProgram

/-- The stored cells of one column: row indices with values. -/
abbrev Column (α : Type) (m : Nat) := List (Fin m × α)

/-- A matrix of `m` rows and `n` columns. -/
structure SparseMatrix (α : Type) (m n : Nat) where
  columns : Vector (Column α m) n

/-- One cell of a matrix. -/
structure Cell (α : Type) (m n : Nat) where
  row : Fin m
  col : Fin n
  value : α

namespace Column

variable {α : Type} {m : Nat}

/-- Adds a value to the cell of a row, which is created in its place if nothing is stored there. -/
def insert [Add α] (row : Fin m) (value : α) : Column α m → Column α m
  | [] => [(row, value)]
  | (r, v) :: rest =>
    if row < r then (row, value) :: (r, v) :: rest
    else if row = r then (r, v + value) :: rest
    else (r, v) :: insert row value rest

/-- The value at a row: everything stored there, added to zero. -/
def value [Add α] [Zero α] (column : Column α m) (row : Fin m) : α :=
  (column.filter (·.1 == row)).foldl (fun total cell => total + cell.2) 0

end Column

namespace SparseMatrix

variable {α : Type} {m n k : Nat}

/-- The matrix that stores nothing. -/
def empty : SparseMatrix α m n :=
  ⟨Vector.replicate n []⟩

/-- Adds a value to one cell. -/
def insert [Add α] (a : SparseMatrix α m n) (cell : Cell α m n) : SparseMatrix α m n :=
  ⟨Vectors.replaceAt a.columns cell.col
    (Column.insert cell.row cell.value (a.columns.get cell.col))⟩

/-- The matrix with the given cells; values of one cell are added in the order given. -/
def ofCells [Add α] (cells : List (Cell α m n)) : SparseMatrix α m n :=
  cells.foldl insert empty

/-- The matrix with the given cells, or the fault of a cell outside the matrix. -/
def ofTriplets [Add α] (m n : Nat) (triplets : List (Nat × Nat × α)) :
    Except Fault (SparseMatrix α m n) := do
  let cells ← triplets.mapM fun (i, j, v) => do
    return Cell.mk (← Fault.position m i) (← Fault.position n j) v
  return ofCells cells

/-- The cells of full rows whose value is not zero, row by row. -/
def nonzeroCells [Zero α] [BEq α] (rows : Vector (Vector α n) m) : List (Cell α m n) :=
  (List.finRange m).flatMap fun i => (List.finRange n).filterMap fun j =>
    if (rows.get i).get j == 0 then none else some ⟨i, j, (rows.get i).get j⟩

/-- The matrix with the given full rows; zeros are not stored. -/
def ofRows [Zero α] [BEq α] [Add α] (rows : Vector (Vector α n) m) : SparseMatrix α m n :=
  ofCells (nonzeroCells rows)

/-- The matrix with the given rows, or the fault of a row that has not `n` entries. -/
def ofDense [Zero α] [BEq α] [Add α] (n : Nat) (rows : Array (Array α)) :
    Except Fault (SparseMatrix α rows.size n) :=
  if h : ∀ row ∈ rows, row.size = n then
    .ok (ofRows ⟨rows.pmap Vector.mk h, rows.size_pmap⟩)
  else .error (.raggedRows n)

/-- The square matrix with the given diagonal, every entry of which is stored. -/
def diagonal [Add α] (entries : Vector α n) : SparseMatrix α n n :=
  ofCells ((List.finRange n).map fun i => ⟨i, i, entries.get i⟩)

/-- The stored cells, column by column and rows ascending. -/
def cells (a : SparseMatrix α m n) : List (Cell α m n) :=
  (List.finRange n).flatMap fun j => (a.columns.get j).map fun (i, v) => ⟨i, j, v⟩

/-- The columns of the first matrix followed by those of the second. -/
def beside [Add α] (left : SparseMatrix α m n) (right : SparseMatrix α m k) : SparseMatrix α m (n + k) :=
  ofCells (left.cells.map (fun c => ⟨c.row, c.col.castAdd k, c.value⟩) ++
    right.cells.map (fun c => ⟨c.row, c.col.natAdd n, c.value⟩))

/-- Two matrices side by side, or the fault of different row counts. -/
def hstack [Add α] {m' : Nat} (left : SparseMatrix α m n) (right : SparseMatrix α m' k) :
    Except Fault (SparseMatrix α m (n + k)) :=
  if h : m' = m then .ok (left.beside (h ▸ right)) else .error (.wrongLength m m')

/-- The value in row `i` and column `j`. -/
def entry [Add α] [Zero α] (a : SparseMatrix α m n) (i : Fin m) (j : Fin n) : α :=
  Column.value (a.columns.get j) i

/-- The full rows. -/
def toRows [Add α] [Zero α] (a : SparseMatrix α m n) : Vector (Vector α n) m :=
  Vector.ofFn fun i => Vector.ofFn fun j => a.entry i j

/-- The number of stored cells in front of each column, and last their total. -/
def columnStarts (a : SparseMatrix α m n) : List Nat :=
  a.columns.toList.scanl (fun total column => total + column.length) 0

/-- The row indices of the stored cells. -/
def rowIndices (a : SparseMatrix α m n) : List (Fin m) :=
  a.cells.map (·.row)

/-- The values of the stored cells. -/
def values (a : SparseMatrix α m n) : List α :=
  a.cells.map (·.value)

end SparseMatrix

end IntegerProgram
