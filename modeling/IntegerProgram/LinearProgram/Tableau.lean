import IntegerProgram.Scalar
import IntegerProgram.Vectors

/-!
# Simplex tableaux

A tableau is a system of equations in which each row has a basic column of its own, together with an
objective row of reduced costs:

* `Tableau.withObjective` installs a cost vector and prices out the basic columns.
* `Tableau.pivot` makes a column basic in a row by elimination.
* `Tableau.entering` and `Tableau.leaving` are Bland's choice of column and row: the first column
  that improves, and among the rows of least ratio the one with the first basic column.
* `Tableau.run` pivots by that choice until the objective is optimal or unbounded or a budget of
  pivots is spent.
-/

namespace IntegerProgram

open Vectors

/-- One equation: coefficients and right-hand side. -/
structure Row (α : Type) (n : Nat) where
  coeffs : Vector α n
  rhs : α
  deriving DecidableEq

/-- A system of `m` equations in `n` columns with its basic columns and its objective row. The
right-hand side of the objective row is the negated objective value. -/
structure Tableau (α : Type) (m n : Nat) where
  rows : Vector (Row α n) m
  objective : Row α n
  basis : Vector (Fin n) m
  deriving DecidableEq

/-- A change of basis: column `enters` becomes basic in `row` in place of column `leaves`. -/
structure Pivot (m n : Nat) where
  row : Fin m
  enters : Fin n
  leaves : Fin n
  deriving DecidableEq, Repr

/-- What Bland's rule demands of a tableau. -/
inductive Choice (m n : Nat) where
  /-- No column improves the objective. -/
  | optimal
  /-- A column improves the objective and no row limits it. -/
  | unbounded
  /-- The next pivot. -/
  | pivot (p : Pivot m n)
  deriving DecidableEq, Repr

/-- The tolerances and the pivot budget of the simplex method. -/
structure SimplexSettings (α : Type) where
  /-- The largest number of pivots in both phases together. -/
  maxPivots : Nat
  /-- Entries that are not above it are no pivot elements. -/
  pivotTol : α
  /-- Reduced costs that are not below its negation do not improve the objective. -/
  optimalityTol : α
  /-- The largest sum of artificial variables that counts as zero. -/
  feasibilityTol : α

/-- Why a run of pivots ended. -/
inductive Ending where
  | optimal
  | unbounded
  | outOfPivots
  deriving DecidableEq, Repr

/-- A run of pivots: why it ended, where, and the pivots made. -/
structure Phase (α : Type) (m n : Nat) where
  ending : Ending
  tableau : Tableau α m n
  pivots : List (Pivot m n)

namespace SimplexSettings

/-- The settings used where nothing else is said. -/
def standard {α : Type} [Scalar α] : SimplexSettings α where
  maxPivots := 50000
  pivotTol := 1e-9
  optimalityTol := 1e-9
  feasibilityTol := 1e-7

end SimplexSettings

namespace Row

variable {α : Type} [Scalar α] {n : Nat}

/-- The row less `factor` times another. -/
def sub (row : Row α n) (factor : α) (other : Row α n) : Row α n where
  coeffs := Vector.zipWith (fun a b => a - factor * b) row.coeffs other.coeffs
  rhs := row.rhs - factor * other.rhs

/-- The row divided by its entry in a column, which becomes exactly one. -/
def normalize (row : Row α n) (col : Fin n) : Row α n where
  coeffs := replaceAt (row.coeffs.map (· / row.coeffs.get col)) col 1
  rhs := row.rhs / row.coeffs.get col

/-- The row less the multiple of a row normalised in a column that clears the entry there, which
becomes exactly zero; a row with zero there stays as it is. -/
def eliminate (row : Row α n) (col : Fin n) (lead : Row α n) : Row α n :=
  if row.coeffs.get col == 0 then row
  else
    let reduced := row.sub (row.coeffs.get col) lead
    { reduced with coeffs := replaceAt reduced.coeffs col 0 }

end Row

namespace Tableau

variable {α : Type} [Scalar α] {m n : Nat}

/-- The entry of a row in a column. -/
def entry (t : Tableau α m n) (i : Fin m) (j : Fin n) : α :=
  (t.rows.get i).coeffs.get j

/-- The right-hand side of a row. -/
def rhs (t : Tableau α m n) (i : Fin m) : α :=
  (t.rows.get i).rhs

/-- The reduced cost of a column. -/
def reduced (t : Tableau α m n) (j : Fin n) : α :=
  t.objective.coeffs.get j

/-- The objective value of the basic solution. -/
def objectiveValue (t : Tableau α m n) : α :=
  -t.objective.rhs

/-- Takes the cost of a row's basic column out of an objective row. -/
def priceOut (t : Tableau α m n) (cost : Vector α n) (objective : Row α n) (i : Fin m) : Row α n :=
  if cost.get (t.basis.get i) == 0 then objective
  else objective.sub (cost.get (t.basis.get i)) (t.rows.get i)

/-- The tableau with the objective row of a cost vector. -/
def withObjective (t : Tableau α m n) (cost : Vector α n) : Tableau α m n :=
  { t with objective := (List.finRange m).foldl (t.priceOut cost) ⟨cost, 0⟩ }

/-- The tableau in which column `col` is basic in row `row`. -/
def pivot (t : Tableau α m n) (row : Fin m) (col : Fin n) : Tableau α m n :=
  let lead := (t.rows.get row).normalize col
  { rows := replaceAt (t.rows.map (·.eliminate col lead)) row lead
    objective := t.objective.eliminate col lead
    basis := replaceAt t.basis row col }

/-- The first of the first `allowed` columns whose reduced cost is below `-tol`. -/
def entering (t : Tableau α m n) (allowed : Nat) (tol : α) : Option (Fin n) :=
  (List.finRange n).find? fun j => decide (j.val < allowed) && decide (t.reduced j < -tol)

/-- The step to which a row limits a column: its right-hand side, counted as zero when negative, over
its entry. -/
def ratio (t : Tableau α m n) (col : Fin n) (i : Fin m) : α :=
  max (t.rhs i) 0 / t.entry i col

/-- Ratios that differ by no more count as equal. -/
def tieWindow : α :=
  1e-12

/-- Whether a row takes the place of the best row so far: a smaller ratio, or an equal one and an
earlier basic column. -/
def beats (t : Tableau α m n) (i : Fin m) (ratio : α) (best : Fin m) (bestRatio : α) : Bool :=
  decide (ratio < bestRatio - tieWindow) ||
    (decide (ratio ≤ bestRatio + tieWindow) && decide (t.basis.get i < t.basis.get best))

/-- One step of the scan for the leaving row; entries that are not above `tol` are passed over. -/
def scanRow (t : Tableau α m n) (col : Fin n) (tol : α) (best : Option (Fin m × α)) (i : Fin m) :
    Option (Fin m × α) :=
  if t.entry i col ≤ tol then best
  else
    match best with
    | none => some (i, t.ratio col i)
    | some (r, bestRatio) =>
      if t.beats i (t.ratio col i) r bestRatio then some (i, t.ratio col i)
      else some (r, bestRatio)

/-- The row that limits a column most; `none` if no row limits it. -/
def leaving (t : Tableau α m n) (col : Fin n) (tol : α) : Option (Fin m) :=
  ((List.finRange m).foldl (t.scanRow col tol) none).map (·.1)

/-- Bland's choice, with the first `allowed` columns free to enter. -/
def choose (t : Tableau α m n) (allowed : Nat) (settings : SimplexSettings α) : Choice m n :=
  match t.entering allowed settings.optimalityTol with
  | none => .optimal
  | some col =>
    match t.leaving col settings.pivotTol with
    | none => .unbounded
    | some row => .pivot ⟨row, col, t.basis.get row⟩

/-- Continues a run that has made the pivots `done`, latest first. -/
def runFrom (allowed : Nat) (settings : SimplexSettings α) :
    Nat → Tableau α m n → List (Pivot m n) → Phase α m n
  | budget, t, done =>
    match t.choose allowed settings, budget with
    | .optimal, _ => ⟨.optimal, t, done.reverse⟩
    | .unbounded, _ => ⟨.unbounded, t, done.reverse⟩
    | .pivot _, 0 => ⟨.outOfPivots, t, done.reverse⟩
    | .pivot p, budget + 1 => runFrom allowed settings budget (t.pivot p.row p.enters) (p :: done)

/-- Pivots by Bland's choice, at most `budget` times. -/
def run (t : Tableau α m n) (allowed : Nat) (settings : SimplexSettings α) (budget : Nat) :
    Phase α m n :=
  runFrom allowed settings budget t []

/-- Makes one of the first `real` columns basic in a row in place of a later one, by the first entry
of a size above `tol`; a row without such an entry is redundant and noted. -/
def expelRow (real : Nat) (tol : α) (state : Tableau α m n × List (Fin m)) (row : Fin m) :
    Tableau α m n × List (Fin m) :=
  let (t, redundant) := state
  if (t.basis.get row).val < real then state
  else
    match (List.finRange n).find? fun j =>
        decide (j.val < real) && decide (tol < Scalar.abs (t.entry row j)) with
    | some col => (t.pivot row col, redundant)
    | none => (t, redundant ++ [row])

/-- Expels the columns from `real` on out of the basis, row by row; returns the redundant rows. -/
def expel (t : Tableau α m n) (real : Nat) (tol : α) : Tableau α m n × List (Fin m) :=
  (List.finRange m).foldl (expelRow real tol) (t, [])

end Tableau

end IntegerProgram
