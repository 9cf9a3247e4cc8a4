import IntegerProgram.Cut
import IntegerProgram.Matrix.Product

/-!
# Linear programs

The task of minimising `c x` over the solutions of `A x = b` in a box. A `LinearProblem` is such a
task as it is stated, of lengths and values nobody has checked; `LinearProblem.check` either names
the first defect or returns the `LinearProgram` in which all lengths agree.
-/

namespace IntegerProgram

/-- A stated linear program: a matrix with costs, right-hand side and box of any length. -/
structure LinearProblem (α : Type) (m n : Nat) where
  matrix : SparseMatrix α m n
  cost : Array α
  rhs : Array α
  bounds : Box α

/-- A linear program whose lengths agree. -/
structure LinearProgram (α : Type) (m n : Nat) where
  matrix : SparseMatrix α m n
  cost : Vector α n
  rhs : Vector α m
  bounds : Vector (Interval α) n

/-- What can be wrong with a stated linear program. -/
inductive Defect where
  | costLength (columns entries : Nat)
  | rhsLength (rows entries : Nat)
  | boundCount (bounds vars : Nat)
  | lowerNotFinite (var : Nat) (value : NonFinite)
  | upperUndefined (var : Nat)
  | dataNotFinite
  deriving DecidableEq, Repr

namespace Defect

/-- The wording of a defect. -/
def message : Defect → String
  | costLength columns entries => s!"A has {columns} columns but c has {entries} entries"
  | rhsLength rows entries => s!"A has {rows} rows but b has {entries} entries"
  | boundCount bounds vars => s!"{bounds} bounds for {vars} variables"
  | lowerNotFinite var value => s!"Variable {var} has non-finite lower bound {value.text}"
  | upperUndefined var => s!"Variable {var} has NaN upper bound"
  | dataNotFinite => "Cost and right-hand side must be finite"

end Defect

namespace LinearProblem

variable {α : Type} [Scalar α] {m n : Nat}

/-- The cost of a point; the longer of costs and point is cut to the length of the shorter. -/
def objective (p : LinearProblem α m n) (x : Array α) : α :=
  Scalar.dot p.cost.toList x.toList

/-- What is wrong with the interval of one variable: a lower bound that is not finite, or else an
undefined upper bound. -/
def boundDefect? (var : Nat) (i : Interval α) : Option Defect :=
  match Scalar.nonFinite? i.lower with
  | some value => some (.lowerNotFinite var value)
  | none => if i.upper.any Scalar.isNaN then some (.upperUndefined var) else none

/-- The linear program behind a stated one, or its first defect: lengths come first, then the
intervals in order, then costs and right-hand side. -/
def check (p : LinearProblem α m n) : Except Defect (LinearProgram α m n) :=
  if cost : p.cost.size = n then
    if rhs : p.rhs.size = m then
      if bounds : p.bounds.size = n then
        match p.bounds.toList.zipIdx.findSome? fun (i, j) => boundDefect? j i with
        | some defect => .error defect
        | none =>
          if p.cost.all Scalar.isFinite && p.rhs.all Scalar.isFinite then
            .ok ⟨p.matrix, ⟨p.cost, cost⟩, ⟨p.rhs, rhs⟩, ⟨p.bounds, bounds⟩⟩
          else .error .dataNotFinite
      else .error (.boundCount p.bounds.size p.cost.size)
    else .error (.rhsLength m p.rhs.size)
  else .error (.costLength n p.cost.size)

end LinearProblem

namespace LinearProgram

variable {α : Type} [Scalar α] {m n : Nat}

/-- The cost of a point. -/
def objective (p : LinearProgram α m n) (x : Vector α n) : α :=
  Scalar.dot p.cost.toList x.toList

/-- The lower bounds of all variables. -/
def lower (p : LinearProgram α m n) : Vector α n :=
  p.bounds.map (·.lower)

/-- The variables with an upper bound, in order, each with the width of its interval. -/
def caps (p : LinearProgram α m n) : List (Fin n × α) :=
  (List.finRange n).filterMap fun j =>
    (p.bounds.get j).upper.map fun u => (j, u - (p.bounds.get j).lower)

/-- The right-hand side `b - A l` that is left when every variable is measured from its lower
bound. -/
def shiftedRhs (p : LinearProgram α m n) : Vector α m :=
  p.matrix.mulAdd p.lower p.rhs (-1) 1

end LinearProgram

end IntegerProgram
