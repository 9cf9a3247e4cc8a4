import IntegerProgram.LinearProgram.Basic

/-!
# Integer models

A model asks for the cheapest solution of `A x = target` in a box with whole numbers at certain
variables. `Model.make` checks the lengths and sorts the integer variables. A point is any array; a
question about a point faults when it reads beyond the end of the array.
-/

namespace IntegerProgram

/-- An integer program: equations, costs, a box, and the variables that must be whole numbers. -/
structure Model (α : Type) (m n : Nat) where
  matrix : SparseMatrix α m n
  target : Vector α m
  cost : Vector α n
  bounds : Vector (Interval α) n
  integers : List (Fin n)
  ascending : integers.Pairwise (· < ·)

/-- What can be wrong with the parts of a model. -/
inductive ModelDefect where
  | targetLength (entries rows : Nat)
  | costLength (entries columns : Nat)
  | boundCount (bounds vars : Nat)
  | lowerNotFinite (var : Nat)
  | noSuchVariable (var vars : Nat)
  deriving DecidableEq, Repr

/-- An integer variable off the whole numbers: its value and the distance to the nearest one. -/
structure Fractional (α : Type) where
  var : Nat
  value : α
  distance : α
  deriving DecidableEq, Repr

namespace ModelDefect

/-- The wording of a defect. -/
def message : ModelDefect → String
  | targetLength entries rows => s!"target has {entries} entries but matrix has {rows} rows"
  | costLength entries columns => s!"cost has {entries} entries but matrix has {columns} columns"
  | boundCount bounds vars => s!"{bounds} bounds for {vars} variables"
  | lowerNotFinite var => s!"variable {var} has non-finite lower bound"
  | noSuchVariable var vars => s!"integer variable {var} but only {vars} variables"

end ModelDefect

namespace Model

/-- Puts an index into an ascending list that does not hold it yet. -/
def insertIndex (i : Nat) : List Nat → List Nat
  | [] => [i]
  | j :: rest =>
    if i < j then i :: j :: rest
    else if i = j then j :: rest
    else j :: insertIndex i rest

/-- The indices in ascending order, each once. -/
def sortIndices (indices : List Nat) : List Nat :=
  indices.foldr insertIndex []

/-- An index put into a list is in it, and nothing else is new. -/
@[simp] theorem mem_insertIndex {i k : Nat} {indices : List Nat} :
    k ∈ insertIndex i indices ↔ k = i ∨ k ∈ indices := by
  induction indices with
  | nil => simp [insertIndex]
  | cons j rest ih =>
    simp only [insertIndex]
    split
    · simp
    · split
      · simp_all
      · simp only [List.mem_cons, ih]
        exact or_left_comm

/-- Putting an index into an ascending list keeps it ascending. -/
theorem insertIndex_ascending {i : Nat} {indices : List Nat} (h : indices.Pairwise (· < ·)) :
    (insertIndex i indices).Pairwise (· < ·) := by
  induction indices with
  | nil => simp [insertIndex]
  | cons j rest ih =>
    rw [List.pairwise_cons] at h
    simp only [insertIndex]
    split
    · rename_i hlt
      refine List.pairwise_cons.2 ⟨fun k hk => ?_, List.pairwise_cons.2 h⟩
      rcases List.mem_cons.1 hk with rfl | hk
      · exact hlt
      · exact Nat.lt_trans hlt (h.1 k hk)
    · split
      · exact List.pairwise_cons.2 h
      · refine List.pairwise_cons.2 ⟨fun k hk => ?_, ih h.2⟩
        rcases mem_insertIndex.1 hk with rfl | hk
        · omega
        · exact h.1 k hk

/-- Sorting neither adds nor loses an index. -/
@[simp] theorem mem_sortIndices {k : Nat} {indices : List Nat} :
    k ∈ sortIndices indices ↔ k ∈ indices := by
  induction indices with
  | nil => simp [sortIndices]
  | cons i rest ih => simpa [sortIndices] using or_congr_right ih

/-- Sorted indices ascend. -/
theorem sortIndices_ascending (indices : List Nat) : (sortIndices indices).Pairwise (· < ·) := by
  induction indices with
  | nil => exact .nil
  | cons i rest ih => exact insertIndex_ascending ih

variable {α : Type} [Scalar α] {m n : Nat}

/-- The model with the given parts, or what is wrong with them first: the lengths, then the lower
bounds in order, then the largest index among the integer variables. -/
def make (matrix : SparseMatrix α m n) (target cost : Array α) (bounds : Box α)
    (integers : List Nat) : Except ModelDefect (Model α m n) :=
  if hTarget : target.size = m then
    if hCost : cost.size = n then
      if hBounds : bounds.size = n then
        match bounds.toList.findIdx? fun i => !Scalar.isFinite i.lower with
        | some var => .error (.lowerNotFinite var)
        | none =>
          if hIntegers : ∀ i ∈ sortIndices integers, i < n then
            .ok {
              matrix
              target := ⟨target, hTarget⟩
              cost := ⟨cost, hCost⟩
              bounds := ⟨bounds, hBounds⟩
              integers := (sortIndices integers).pmap Fin.mk hIntegers
              ascending := (sortIndices_ascending integers).pmap _ fun _ _ _ _ h => h }
          else .error (.noSuchVariable (integers.foldl max 0) n)
      else .error (.boundCount bounds.size n)
    else .error (.costLength cost.size n)
  else .error (.targetLength target.size m)

/-- The box of a model. -/
def box (model : Model α m n) : Box α :=
  model.bounds.toArray

/-- The indices of the integer variables. -/
def integerIndices (model : Model α m n) : List Nat :=
  model.integers.map (·.val)

/-- Whether the integer variables of a point are whole numbers up to a tolerance; the test stops at
the first that is not. -/
def isIntegral (model : Model α m n) (x : Array α) (tol : α) : Except Fault Bool :=
  model.integerIndices.allM fun i => do
    return decide (Scalar.fractionality (← Fault.entry x i) ≤ tol)

/-- The integer variables of a point that are off the whole numbers by more than a tolerance, in
order. -/
def fractionals (model : Model α m n) (x : Array α) (tol : α) :
    Except Fault (List (Fractional α)) := do
  let values ← model.integerIndices.mapM fun i => return (i, ← Fault.entry x i)
  return values.filterMap fun (i, v) =>
    if tol < Scalar.fractionality v then some ⟨i, v, Scalar.fractionality v⟩ else none

/-- The largest absolute entry of `A x - target`. -/
def residual? (model : Model α m n) (x : Array α) : Except Fault α :=
  model.matrix.residual? x model.target.toArray

/-- Whether a point lies in the box up to a tolerance; only variables that the point has are
tested. -/
def inBounds (model : Model α m n) (x : Array α) (tol : α) : Bool :=
  (model.bounds.toList.zip x.toList).all fun (i, v) => i.contains v tol

end Model

end IntegerProgram
