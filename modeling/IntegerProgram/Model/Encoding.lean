import IntegerProgram.Error

/-!
# Selection problems

Column `j` of a matrix says what one selection of `j` contributes to each row, and the fewest
selections that reach a target are wanted. In the direct encoding contributions add up to the target.
In the parity encoding each column is selected at most once and only parities have to agree: a column
of `-2` for each row takes up the even surplus.
-/

namespace IntegerProgram

/-- How selections combine to the target. -/
inductive Encoding where
  | parity
  | direct
  deriving DecidableEq, Repr

namespace Encoding

variable {α : Type} [Scalar α] {m n : Nat}

/-- The number of variables for a matrix of `m` rows and `n` columns. -/
abbrev vars : Encoding → Nat → Nat → Nat
  | parity, m, n => n + m
  | direct, _, n => n

/-- The parity model: one binary variable of cost one for each column and one free surplus for each
row. -/
def parityModel (a : SparseMatrix α m n) (target : Array α) :
    Except ModelDefect (Model α m (n + m)) :=
  let surplus := SparseMatrix.diagonal (Vector.replicate m (-(1 + 1)))
  Model.make (a.beside surplus) target (Array.replicate n 1 ++ Array.replicate m 0)
    (Array.replicate n .unit ++ Array.replicate m .nonneg) (List.range (n + m))

/-- The direct model: one counting variable of cost one for each column. -/
def directModel (a : SparseMatrix α m n) (target : Array α) : Except ModelDefect (Model α m n) :=
  Model.make a target (Array.replicate n 1) (Array.replicate n .nonneg) (List.range n)

/-- The model of a selection problem; a matrix without columns offers nothing to select. -/
def encode (encoding : Encoding) (a : SparseMatrix α m n) (target : Array α) :
    Except Error (Model α m (encoding.vars m n)) :=
  if n = 0 then .error .noColumns
  else
    match encoding with
    | parity => (parityModel a target).mapError .malformedModel
    | direct => (directModel a target).mapError .malformedModel

end Encoding

end IntegerProgram
