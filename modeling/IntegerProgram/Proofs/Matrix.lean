import Mathlib
import IntegerProgram.Matrix.Product
import IntegerProgram.Proofs.Exact

/-!
# Sparse matrices by their entries

Over exact scalars a sparse matrix is determined by its entries, whatever is stored and in which order:

* `Column.value_insert`, `SparseMatrix.entry_ofCells`: the entry of a matrix made of cells is the sum
  of the values given for it.
* `SparseMatrix.sum_cells`: a sum over the stored cells is a sum over columns.
* `SparseMatrix.get_mulAdd`: the scattered product is the product of the entries, on the shortcut
  paths and on the general one.
* `SparseMatrix.residual_le_iff`: the residual bounds the gaps of all equations.
* `SparseMatrix.entry_beside_left`, `SparseMatrix.entry_beside_right`, `SparseMatrix.entry_diagonal`:
  the entries of two matrices side by side and of a diagonal.
-/

namespace IntegerProgram

namespace Column

variable {m : Nat}

/-- The value at a row is the sum of what is stored there. -/
lemma value_eq_sum (column : Column Rat m) (i : Fin m) :
    column.value i = (column.map fun cell => if cell.1 = i then cell.2 else 0).sum := by
  have h : ∀ start : Rat, (column.filter (·.1 == i)).foldl (fun total cell => total + cell.2) start
      = start + (column.map fun cell => if cell.1 = i then cell.2 else 0).sum := by
    induction column with
    | nil => simp
    | cons cell rest ih =>
      intro start
      rw [List.filter_cons, List.map_cons, List.sum_cons]
      by_cases e : cell.1 = i
      · simp only [e, beq_self_eq_true, if_true, List.foldl_cons]
        rw [ih, add_assoc]
      · simp only [beq_iff_eq, e, if_false, zero_add]
        exact ih start
  rw [value, h, zero_add]

/-- The value at a row, cell by cell. -/
lemma value_cons (cell : Fin m × Rat) (rest : Column Rat m) (i : Fin m) :
    Column.value (cell :: rest) i = (if cell.1 = i then cell.2 else 0) + Column.value rest i := by
  rw [value_eq_sum, value_eq_sum, List.map_cons, List.sum_cons]

/-- An insertion adds to the value of its own row and to no other. -/
lemma value_insert (row : Fin m) (v : Rat) (column : Column Rat m) (i : Fin m) :
    (insert row v column).value i = column.value i + if row = i then v else 0 := by
  induction column with
  | nil => simp [insert, value_eq_sum]
  | cons cell rest ih =>
    obtain ⟨r, w⟩ := cell
    unfold insert
    split
    · rw [value_cons]
      ring
    · split
      · rename_i e
        subst e
        simp only [value_cons]
        split <;> ring
      · rw [value_cons, value_cons, ih]
        ring

end Column

/-- The entries of a vector are those at its positions. -/
lemma Vectors.forall_mem_toList {α : Type} {n : Nat} {v : Vector α n} {P : α → Prop} :
    (∀ a ∈ v.toList, P a) ↔ ∀ i, P (v.get i) := by
  simp only [Vector.mem_toList_iff, Vector.mem_iff_getElem]
  constructor
  · intro h i
    exact h _ ⟨i.val, i.isLt, rfl⟩
  · rintro h _ ⟨i, hi, rfl⟩
    exact h ⟨i, hi⟩

/-- A vector has its own length. -/
lemma Fault.vector_toArray {α : Type} {n : Nat} (v : Vector α n) : Fault.vector n v.toArray = .ok v :=
  dif_pos v.size_toArray

namespace SparseMatrix

variable {m n k : Nat}

lemma mulAdd?_toArray {α : Type} [Scalar α] (a : SparseMatrix α m n) (x : Vector α n) (y : Vector α m)
    (alpha beta : α) : a.mulAdd? x.toArray y.toArray alpha beta = .ok (a.mulAdd x y alpha beta) := by
  rw [mulAdd?, Fault.vector_toArray, Fault.vector_toArray]
  rfl

lemma residual?_toArray {α : Type} [Scalar α] (a : SparseMatrix α m n) (x : Vector α n) (b : Vector α m) :
    a.residual? x.toArray b.toArray = .ok (a.residual x b) := by
  rw [residual?, Fault.vector_toArray, Fault.vector_toArray]
  rfl

/-- A point solves the equations `A x = b`. -/
def Solves (a : SparseMatrix Rat m n) (x : Vector Rat n) (b : Vector Rat m) : Prop :=
  ∀ i, ∑ j, a.entry i j * x.get j = b.get i

/-- The matrix that stores nothing is zero. -/
lemma entry_empty (i : Fin m) (j : Fin n) : (empty : SparseMatrix Rat m n).entry i j = 0 := by
  simp [entry, empty, Column.value]

/-- An insertion adds to its own entry and to no other. -/
lemma entry_insert (a : SparseMatrix Rat m n) (cell : Cell Rat m n) (i : Fin m) (j : Fin n) :
    (a.insert cell).entry i j
      = a.entry i j + if cell.row = i ∧ cell.col = j then cell.value else 0 := by
  unfold entry insert
  rw [Vectors.get_replaceAt]
  by_cases e : cell.col = j
  · subst e
    simp only [if_true, and_true]
    exact Column.value_insert ..
  · simp [e]

/-- An entry of a matrix made of cells is the sum of the values given for it. -/
lemma entry_ofCells (cells : List (Cell Rat m n)) (i : Fin m) (j : Fin n) :
    (ofCells cells).entry i j
      = (cells.map fun c => if c.row = i ∧ c.col = j then c.value else 0).sum := by
  have h : ∀ a : SparseMatrix Rat m n, (cells.foldl insert a).entry i j
      = a.entry i j + (cells.map fun c => if c.row = i ∧ c.col = j then c.value else 0).sum := by
    induction cells with
    | nil => simp
    | cons cell rest ih =>
      intro a
      rw [List.foldl_cons, ih, entry_insert, List.map_cons, List.sum_cons, add_assoc]
  rw [ofCells, h, entry_empty, zero_add]

/-- A sum over the stored cells, column by column. -/
lemma sum_cells (a : SparseMatrix Rat m n) (f : Cell Rat m n → Rat) :
    (a.cells.map f).sum = ∑ j, ((a.columns.get j).map fun cell => f ⟨cell.1, j, cell.2⟩).sum := by
  unfold cells
  rw [← List.sum_ofFn, List.ofFn_eq_map, List.map_flatMap, List.flatMap_def, List.sum_flatten,
    List.map_map]
  congr 1
  apply List.map_congr_left
  intro j _
  rw [Function.comp_apply, List.map_map]
  rfl

/-- A sum over the stored cells of one row that uses the values linearly is a sum over the entries. -/
lemma sum_cells_row (a : SparseMatrix Rat m n) (i : Fin m) (f : Fin n → Rat) :
    (a.cells.map fun c => if c.row = i then c.value * f c.col else 0).sum
      = ∑ j, a.entry i j * f j := by
  rw [sum_cells]
  apply Finset.sum_congr rfl
  intro j _
  rw [entry, Column.value_eq_sum, ← List.sum_map_mul_right]
  congr 1
  apply List.map_congr_left
  intro cell _
  split
  · rfl
  · rw [zero_mul]

/-- Scattering cells adds to each entry what the cells of its row contribute. -/
lemma get_foldl_scatter (alpha : Rat) (x : Vector Rat n) (cells : List (Cell Rat m n))
    (y : Vector Rat m) (i : Fin m) :
    (cells.foldl (scatter alpha x) y).get i
      = y.get i + (cells.map fun c => if c.row = i then c.value * (alpha * x.get c.col) else 0).sum := by
  induction cells generalizing y with
  | nil => simp
  | cons cell rest ih =>
    rw [List.foldl_cons, ih, List.map_cons, List.sum_cons, scatter, Vectors.get_replaceAt]
    split
    · rename_i e
      subst e
      ring
    · rw [zero_add]

/-- Scaling is multiplication, on the shortcut paths too. -/
lemma get_scaled (beta : Rat) (y : Vector Rat m) (i : Fin m) :
    (scaled beta y).get i = beta * y.get i := by
  unfold scaled
  split
  · rename_i e
    rw [beq_iff_eq] at e
    rw [e, Vectors.get_replicate, zero_mul]
  · split
    · rename_i e
      rw [beq_iff_eq] at e
      rw [e, one_mul]
    · rw [Vectors.get_map, mul_comm]

/-- The scattered combination `alpha * A * x + beta * y` is the one of the entries. -/
lemma get_mulAdd (a : SparseMatrix Rat m n) (x : Vector Rat n) (y : Vector Rat m)
    (alpha beta : Rat) (i : Fin m) :
    (a.mulAdd x y alpha beta).get i
      = alpha * ∑ j, a.entry i j * x.get j + beta * y.get i := by
  unfold mulAdd
  split
  · rename_i e
    rw [beq_iff_eq] at e
    rw [e, get_scaled, zero_mul, zero_add]
  · rw [get_foldl_scatter, get_scaled, sum_cells_row a i fun j => alpha * x.get j, Finset.mul_sum,
      add_comm]
    congr 1
    apply Finset.sum_congr rfl
    intro j _
    ring

/-- The residual is the least bound on the gaps of all equations. -/
lemma residual_le_iff {a : SparseMatrix Rat m n} {x : Vector Rat n} {b : Vector Rat m}
    {bound : Rat} :
    a.residual x b ≤ bound ↔ 0 ≤ bound ∧ ∀ i, |∑ j, a.entry i j * x.get j - b.get i| ≤ bound := by
  have hgap : ∀ i, (a.mulAdd x b 1 (-1)).get i = ∑ j, a.entry i j * x.get j - b.get i := by
    intro i
    rw [get_mulAdd]
    ring
  unfold residual
  rw [Rational.maxAbs_le_iff, Vectors.forall_mem_toList]
  simp only [hgap]

/-- The solutions are the points with residual zero. -/
lemma residual_eq_zero_iff {a : SparseMatrix Rat m n} {x : Vector Rat n} {b : Vector Rat m} :
    a.residual x b = 0 ↔ a.Solves x b := by
  have hnonneg : 0 ≤ a.residual x b := (residual_le_iff.1 le_rfl).1
  have hzero : a.residual x b = 0 ↔ a.residual x b ≤ 0 := ⟨le_of_eq, fun h => le_antisymm h hnonneg⟩
  rw [hzero, residual_le_iff]
  simp only [le_refl, true_and, abs_nonpos_iff, sub_eq_zero]
  rfl

/-- The stored cells of one entry add up to it. -/
lemma sum_cells_entry (a : SparseMatrix Rat m n) (i : Fin m) (j : Fin n) :
    (a.cells.map fun c => if c.row = i ∧ c.col = j then c.value else 0).sum = a.entry i j := by
  have h := a.sum_cells_row i fun j' => if j' = j then 1 else 0
  simp only [mul_ite, mul_one, mul_zero, Finset.sum_ite_eq', Finset.mem_univ, if_true] at h
  rw [← h]
  congr 1
  apply List.map_congr_left
  intro c _
  rw [ite_and]

/-- The left part of two matrices side by side. -/
lemma entry_beside_left (left : SparseMatrix Rat m n) (right : SparseMatrix Rat m k) (i : Fin m)
    (j : Fin n) : (left.beside right).entry i (j.castAdd k) = left.entry i j := by
  have ne : ∀ c : Fin k, c.natAdd n ≠ j.castAdd k := fun c => (Vectors.castAdd_ne_natAdd j c).symm
  rw [beside, entry_ofCells, List.map_append, List.sum_append, List.map_map, List.map_map]
  simp only [Function.comp_def, Fin.castAdd_inj, ne, and_false, if_false, List.map_const',
    List.sum_replicate, smul_zero, add_zero]
  exact left.sum_cells_entry i j

/-- The right part of two matrices side by side. -/
lemma entry_beside_right (left : SparseMatrix Rat m n) (right : SparseMatrix Rat m k) (i : Fin m)
    (j : Fin k) : (left.beside right).entry i (j.natAdd n) = right.entry i j := by
  have ne : ∀ c : Fin n, c.castAdd k ≠ j.natAdd n := fun c => Vectors.castAdd_ne_natAdd c j
  rw [beside, entry_ofCells, List.map_append, List.sum_append, List.map_map, List.map_map]
  simp only [Function.comp_def, Fin.natAdd_inj, ne, and_false, if_false, List.map_const',
    List.sum_replicate, smul_zero, zero_add]
  exact right.sum_cells_entry i j

/-- A diagonal matrix is zero off its diagonal. -/
lemma entry_diagonal (entries : Vector Rat n) (i j : Fin n) :
    (diagonal entries).entry i j = if i = j then entries.get i else 0 := by
  rw [diagonal, entry_ofCells, List.map_map, ← List.ofFn_eq_map, List.sum_ofFn]
  simp only [Function.comp_def]
  by_cases e : i = j
  · subst e
    simp
  · rw [if_neg e]
    apply Finset.sum_eq_zero
    intro l _
    rw [if_neg]
    rintro ⟨rfl, rfl⟩
    exact e rfl

end SparseMatrix

end IntegerProgram
