import IntegerProgram.Model.Basic
import IntegerProgram.Settings

/-!
# Branching decisions

A decision names a variable and the two cuts that exclude its value, one below and one above.
`BranchingRule.select` decides at a point; it answers `none` when no integer variable is off the whole
numbers by more than the tolerance.
-/

namespace IntegerProgram

/-- A variable to branch on, its value, and the two cuts that exclude the value. -/
structure Decision (α : Type) where
  var : Nat
  value : α
  down : Cut α
  up : Cut α
  deriving DecidableEq, Repr

namespace Decision

variable {α : Type} [Scalar α]

/-- The decision to branch on a variable at a value. -/
def split (var : Nat) (value : α) : Decision α :=
  ⟨var, value, .down var value, .up var value⟩

end Decision

namespace BranchingRule

variable {α : Type} [Scalar α] {m n : Nat}

/-- The first fractional variable of a point; later variables are not read. -/
def first (model : Model α m n) (x : Array α) (tol : α) : Except Fault (Option (Decision α)) :=
  model.integerIndices.findSomeM? fun i => do
    let v ← Fault.entry x i
    return if tol < Scalar.fractionality v then some (.split i v) else none

/-- The entry with the larger distance, the first of two equal ones. -/
def farther (best : Option (Fractional α)) (f : Fractional α) : Option (Fractional α) :=
  match best with
  | none => some f
  | some b => if b.distance < f.distance then some f else some b

/-- The variable of a point that is farthest from the whole numbers. -/
def most (model : Model α m n) (x : Array α) (tol : α) : Except Fault (Option (Decision α)) := do
  let best := (← model.fractionals x tol).foldl farther none
  return best.map fun f => .split f.var f.value

/-- The variable to branch on. -/
def select (rule : BranchingRule) (model : Model α m n) (x : Array α) (tol : α) :
    Except Fault (Option (Decision α)) :=
  match rule with
  | firstFractional => first model x tol
  | mostFractional => most model x tol

end BranchingRule

end IntegerProgram
