import IntegerProgram.LinearProgram.Basic
import IntegerProgram.LinearProgram.Tableau

/-!
# Standard form

A linear program is brought to a tableau by measuring every variable from its lower bound. Each
equation becomes a row with a non-negative right-hand side and an artificial column, each upper bound
becomes a row with a slack column. The columns stand in the order variables, slacks, artificials; the
first two kinds are the real ones. The basis starts with the artificial and slack columns.
-/

namespace IntegerProgram.LinearProgram

variable {α : Type} [Scalar α] {m n : Nat}

/-- The number of rows: equations, then upper bounds. -/
abbrev rowCount (p : LinearProgram α m n) : Nat :=
  m + p.caps.length

/-- The number of real columns: variables, then slacks. -/
abbrev realCount (p : LinearProgram α m n) : Nat :=
  n + p.caps.length

/-- The number of columns: the real ones, then an artificial one for each equation. -/
abbrev columnCount (p : LinearProgram α m n) : Nat :=
  p.realCount + m

/-- The column of a variable. -/
def variableColumn (p : LinearProgram α m n) (j : Fin n) : Fin p.columnCount :=
  (j.castAdd p.caps.length).castAdd m

/-- The slack column of an upper bound. -/
def slackColumn (p : LinearProgram α m n) (s : Fin p.caps.length) : Fin p.columnCount :=
  (s.natAdd n).castAdd m

/-- The artificial column of an equation. -/
def artificialColumn (p : LinearProgram α m n) (i : Fin m) : Fin p.columnCount :=
  i.natAdd p.realCount

/-- A value for each column, given by kind. -/
def columnVector (p : LinearProgram α m n) (structural : Fin n → α) (slacks : Fin p.caps.length → α)
    (artificials : Fin m → α) : Vector α p.columnCount :=
  Vector.ofFn (Fin.addCases (Fin.addCases structural slacks) artificials)

/-- The factor that makes a right-hand side non-negative. -/
def signOf (v : α) : α :=
  if v < 0 then -1 else 1

/-- The row of an equation. -/
def equationRow (p : LinearProgram α m n) (rhs : Vector α m) (i : Fin m) : Row α p.columnCount where
  coeffs := p.columnVector (fun j => signOf (rhs.get i) * p.matrix.entry i j) (fun _ => 0)
    (fun i' => if i' = i then 1 else 0)
  rhs := rhs.get i * signOf (rhs.get i)

/-- The row of an upper bound: variable plus slack is the width of the interval. -/
def capRow (p : LinearProgram α m n) (s : Fin p.caps.length) : Row α p.columnCount where
  coeffs := p.columnVector (fun j => if j = (p.caps.get s).1 then 1 else 0)
    (fun s' => if s' = s then 1 else 0) (fun _ => 0)
  rhs := (p.caps.get s).2

/-- The tableau of a program before any objective is installed. -/
def standardForm (p : LinearProgram α m n) : Tableau α p.rowCount p.columnCount :=
  let rhs := p.shiftedRhs
  { rows := Vector.ofFn (Fin.addCases (p.equationRow rhs) p.capRow)
    objective := ⟨Vector.replicate _ 0, 0⟩
    basis := Vector.ofFn (Fin.addCases p.artificialColumn p.slackColumn) }

/-- The objective of the first phase: the sum of the artificial columns. -/
def infeasibilityCost (p : LinearProgram α m n) : Vector α p.columnCount :=
  p.columnVector (fun _ => 0) (fun _ => 0) (fun _ => 1)

/-- The objective of the second phase: the costs of the program. -/
def realCost (p : LinearProgram α m n) : Vector α p.columnCount :=
  p.columnVector p.cost.get (fun _ => 0) (fun _ => 0)

/-- Adds the right-hand side of a row to the variable that is basic there; a negative right-hand side
counts as zero. -/
def readRow (p : LinearProgram α m n) (t : Tableau α p.rowCount p.columnCount) (x : Vector α n)
    (row : Fin p.rowCount) : Vector α n :=
  if h : (t.basis.get row).val < n then
    Vectors.replaceAt x ⟨t.basis.get row, h⟩ (x.get ⟨t.basis.get row, h⟩ + max (t.rhs row) 0)
  else x

/-- The point at which a tableau stands. -/
def point (p : LinearProgram α m n) (t : Tableau α p.rowCount p.columnCount) : Vector α n :=
  (List.finRange p.rowCount).foldl (p.readRow t) p.lower

end IntegerProgram.LinearProgram
