import Mathlib
import IntegerProgram.Matrix.Sparse
import IntegerProgram.Proofs.Exact

/-!
# The compressed column form

What the constructors of sparse matrices store, for every kind of scalar. Cells are collected column by
column: a column is what insertion makes of its cells in the order given (`get_columns_ofCells`), its rows
ascend (`Column.ascends_collect`), and at each row it stores the total of the values given there
(`Column.lookup_collect`). Cells that ascend already stay as they are (`Column.collect_of_ascends`), so
nothing moves when two matrices are placed side by side (`columns_beside`).

The column starts are partial sums of lengths, and the row indices between two of them are those of one
column (`extract_rowIndices`); so the three arrays are well formed exactly if all columns ascend
(`isCompressed_iff`).
-/

namespace IntegerProgram

variable {α : Type} {m n k : Nat}

/-- The values added from left to right; there is no total of no value. -/
def total? [Add α] : List α → Option α
  | [] => none
  | v :: rest => some (rest.foldl (· + ·) v)

lemma total?_concat [Add α] (values : List α) (v : α) :
    total? (values ++ [v]) = some ((total? values).elim v (· + v)) := by
  cases values with
  | nil => rfl
  | cons w rest =>
    show some ((rest ++ [v]).foldl (· + ·) w) = _
    rw [List.foldl_append]
    rfl

/-- Where addition has a zero, the total is the sum. -/
lemma elim_total? [AddMonoid α] (values : List α) : (total? values).elim 0 (0 + ·) = values.sum := by
  cases values with
  | nil => rfl
  | cons v rest =>
    show 0 + rest.foldl (· + ·) v = _
    rw [List.sum_eq_foldl, List.foldl_cons, zero_add, zero_add]

/-- Only one position of a list without repetitions contributes to a concatenation. -/
lemma flatMap_eq_single {β γ : Type} {l : List β} {f : β → List γ} {b : β} (distinct : l.Nodup) (hb : b ∈ l)
    (h : ∀ b' ≠ b, f b' = []) : l.flatMap f = f b := by
  induction l with
  | nil => cases hb
  | cons c rest ih =>
    obtain ⟨hc, hrest⟩ := List.nodup_cons.1 distinct
    rw [List.flatMap_cons]
    by_cases e : c = b
    · subst e
      have hnil : rest.flatMap f = [] := by
        rw [List.flatMap_eq_nil_iff]
        intro d hd
        exact h d fun e => hc (e ▸ hd)
      rw [hnil, List.append_nil]
    · rw [h c e, ih hrest ((List.mem_cons.1 hb).resolve_left (Ne.symm e)), List.nil_append]

namespace Vectors

@[simp] lemma get_append_castAdd (v : Vector α n) (w : Vector α k) (j : Fin n) :
    (v ++ w).get (j.castAdd k) = v.get j :=
  Vector.getElem_append_left j.isLt

@[simp] lemma get_append_natAdd (v : Vector α n) (w : Vector α k) (j : Fin k) :
    (v ++ w).get (j.natAdd n) = w.get j := by
  simp [get_eq]

end Vectors

namespace Column

/-- The rows of the stored cells ascend. -/
def Ascends (column : Column α m) : Prop :=
  column.Pairwise fun c d => c.1 < d.1

variable {column : Column α m}

lemma lookup_cons (r : Fin m) (w : α) (rest : Column α m) (i : Fin m) :
    List.lookup i ((r, w) :: rest) = if i = r then some w else rest.lookup i := by
  rw [List.lookup_cons]
  by_cases e : i = r
  · simp [e]
  · simp [e, beq_false_of_ne e]

lemma lookup_eq_none_of_lt {i : Fin m} (h : ∀ c ∈ column, i < c.1) : column.lookup i = none := by
  rw [List.lookup_eq_none_iff]
  intro c hc
  exact bne_iff_ne.2 (h c hc).ne

lemma Ascends.all_lt {row r : Fin m} {w : α} {rest : Column α m} (h : Ascends ((r, w) :: rest))
    (hlt : row < r) : ∀ c ∈ (r, w) :: rest, row < c.1 := by
  intro c hc
  cases hc with
  | head => exact hlt
  | tail _ hc => exact hlt.trans (List.rel_of_pairwise_cons h hc)

/-- The cell of a row in an ascending column is the only one. -/
lemma Ascends.filter_row (h : column.Ascends) (i : Fin m) :
    column.filter (·.1 == i) = ((column.lookup i).map (Prod.mk i)).toList := by
  induction column with
  | nil => rfl
  | cons c rest ih =>
    obtain ⟨r, w⟩ := c
    obtain ⟨hfirst, hrest⟩ := List.pairwise_cons.1 h
    rw [lookup_cons, List.filter_cons, ih hrest]
    by_cases e : i = r
    · subst e
      simp [lookup_eq_none_of_lt hfirst]
    · simp [e, Ne.symm e]

lemma Ascends.mem_iff (h : column.Ascends) {i : Fin m} {v : α} :
    (i, v) ∈ column ↔ column.lookup i = some v := by
  have hrow : (i, v) ∈ column ↔ (i, v) ∈ column.filter (·.1 == i) := by
    simp
  rw [hrow, h.filter_row]
  simp

/-- An ascending column is determined by its cells. -/
lemma Ascends.ext {column' : Column α m} (h : column.Ascends) (h' : column'.Ascends)
    (hmem : ∀ c, c ∈ column ↔ c ∈ column') : column = column' := by
  have : Std.Irrefl fun c d : Fin m × α => c.1 < d.1 := ⟨fun c => lt_irrefl c.1⟩
  have : Std.Antisymm fun c d : Fin m × α => c.1 < d.1 := ⟨fun c d hlt hgt => absurd hgt hlt.asymm⟩
  exact h.eq_of_mem_iff h' hmem

/-- The value at a row of an ascending column is the stored one, added to zero. -/
lemma Ascends.value_eq [Add α] [Zero α] (h : column.Ascends) (i : Fin m) :
    column.value i = (column.lookup i).elim 0 (0 + ·) := by
  rw [value, h.filter_row]
  cases column.lookup i with
  | none => rfl
  | some v => rfl

section Insertion

variable [Add α]

lemma row_of_mem_insert {row : Fin m} {v : α} {c : Fin m × α} (h : c ∈ insert row v column) :
    c.1 = row ∨ ∃ d ∈ column, d.1 = c.1 := by
  fun_induction insert row v column with
  | case1 =>
    rw [List.mem_singleton.1 h]
    exact .inl rfl
  | case2 r w rest hlt =>
    cases h with
    | head => exact .inl rfl
    | tail _ h => exact .inr ⟨c, h, rfl⟩
  | case3 w rest hlt =>
    cases h with
    | head => exact .inl rfl
    | tail _ h => exact .inr ⟨c, List.mem_cons_of_mem _ h, rfl⟩
  | case4 r w rest hlt hne ih =>
    cases h with
    | head => exact .inr ⟨(r, w), List.mem_cons_self, rfl⟩
    | tail _ h =>
      rcases ih h with hrow | ⟨d, hd, hrow⟩
      · exact .inl hrow
      · exact .inr ⟨d, List.mem_cons_of_mem _ hd, hrow⟩

lemma Ascends.insert (h : column.Ascends) (row : Fin m) (v : α) : (insert row v column).Ascends := by
  fun_induction Column.insert row v column with
  | case1 => exact List.pairwise_singleton ..
  | case2 r w rest hlt => exact List.pairwise_cons.2 ⟨h.all_lt hlt, h⟩
  | case3 w rest hlt => exact List.pairwise_cons.2 (List.pairwise_cons.1 h)
  | case4 r w rest hlt hne ih =>
    obtain ⟨hfirst, hrest⟩ := List.pairwise_cons.1 h
    refine List.pairwise_cons.2 ⟨?_, ih hrest⟩
    intro d hd
    rcases row_of_mem_insert hd with hrow | ⟨d', hd', hrow⟩
    · rw [hrow]
      exact lt_of_le_of_ne (not_lt.1 hlt) (Ne.symm hne)
    · rw [← hrow]
      exact hfirst d' hd'

/-- An insertion adds to what is stored at its row, or stores the value there. -/
lemma Ascends.lookup_insert (h : column.Ascends) (row : Fin m) (v : α) (i : Fin m) :
    (Column.insert row v column).lookup i =
      if i = row then some ((column.lookup row).elim v (· + v)) else column.lookup i := by
  fun_induction Column.insert row v column with
  | case1 => exact lookup_cons ..
  | case2 r w rest hlt =>
    -- The column ascends, so nothing behind the new cell is stored at its row.
    rw [lookup_cons row v, lookup_eq_none_of_lt (h.all_lt hlt)]
    rfl
  | case3 w rest hlt =>
    simp only [lookup_cons, if_true, Option.elim_some]
    split <;> rfl
  | case4 r w rest hlt hne ih =>
    simp only [lookup_cons, ih (List.Pairwise.of_cons h), if_neg hne]
    by_cases e : i = r
    · rw [if_pos e, if_pos e, if_neg (e ▸ Ne.symm hne)]
    · rw [if_neg e, if_neg e]

/-- A row beyond all others goes to the end. -/
lemma insert_last {row : Fin m} {v : α} (h : ∀ c ∈ column, c.1 < row) :
    insert row v column = column ++ [(row, v)] := by
  induction column with
  | nil => rfl
  | cons c rest ih =>
    obtain ⟨r, w⟩ := c
    obtain ⟨hlt, hrest⟩ := List.forall_mem_cons.1 h
    rw [insert, if_neg hlt.asymm, if_neg hlt.ne', ih hrest]
    rfl

/-- The column made of cells in any order. -/
def collect (cells : List (Fin m × α)) : Column α m :=
  cells.foldl (fun column c => insert c.1 c.2 column) []

lemma collect_concat (cells : List (Fin m × α)) (c : Fin m × α) :
    collect (cells ++ [c]) = insert c.1 c.2 (collect cells) :=
  List.foldl_append

lemma ascends_collect (cells : List (Fin m × α)) : (collect cells).Ascends := by
  induction cells using List.reverseRecOn with
  | nil => exact .nil
  | append_singleton cells c ih =>
    rw [collect_concat]
    exact ih.insert ..

/-- A column made of cells stores at each row the total of the values given there. -/
lemma lookup_collect (cells : List (Fin m × α)) (i : Fin m) :
    (collect cells).lookup i = total? (cells.filterMap fun c => if c.1 = i then some c.2 else none) := by
  induction cells using List.reverseRecOn with
  | nil => rfl
  | append_singleton cells c ih =>
    rw [collect_concat, (ascends_collect cells).lookup_insert, List.filterMap_append]
    by_cases e : c.1 = i
    · subst e
      rw [if_pos rfl, ih]
      simp [total?_concat]
    · rw [if_neg (Ne.symm e), ih]
      simp [e]

/-- Collecting the cells of an ascending column changes nothing. -/
lemma collect_of_ascends (h : column.Ascends) : collect column = column := by
  induction column using List.reverseRecOn with
  | nil => rfl
  | append_singleton column c ih =>
    obtain ⟨hcolumn, -, hlast⟩ := List.pairwise_append.1 h
    rw [collect_concat, ih hcolumn]
    exact insert_last fun d hd => hlast d hd c List.mem_cons_self

end Insertion

end Column

/-- A cell by the numbers of its row and column. -/
def Cell.triplet (c : Cell α m n) : Nat × Nat × α :=
  (c.row, c.col, c.value)

namespace SparseMatrix

/-- The values given for one place of a matrix, in the order given. -/
def given (triplets : List (Nat × Nat × α)) (i j : Nat) : List α :=
  triplets.filterMap fun (row, col, v) => if row = i ∧ col = j then some v else none

/-- The cells of one column, in the order given. -/
def columnCells (cells : List (Cell α m n)) (j : Fin n) : List (Fin m × α) :=
  cells.filterMap fun c => if c.col = j then some (c.row, c.value) else none

/-- The three arrays are well formed: the column starts lead from zero to the number of stored values without
going back, and between two of them the row indices ascend. -/
structure IsCompressed (a : SparseMatrix α m n) : Prop where
  starts_length : a.columnStarts.length = n + 1
  starts_first : a.columnStarts.head? = some 0
  starts_ascend : a.columnStarts.Pairwise (· ≤ ·)
  starts_last : a.columnStarts.getLast? = some a.values.length
  rows_length : a.rowIndices.length = a.values.length
  rows_ascend : ∀ j : Fin n, ∀ start ∈ a.columnStarts[j.val]?, ∀ stop ∈ a.columnStarts[j.val + 1]?,
    (a.rowIndices.extract start stop).Pairwise (· < ·)

/-- The matrix stores what is given: the cells are in the order of columns and rows, the values of one place are
added in the order given, and a total of zero is stored like any other. -/
structure Collects [Add α] (a : SparseMatrix α m n) (triplets : List (Nat × Nat × α)) : Prop where
  compressed : a.IsCompressed
  stored : ∀ (i : Fin m) (j : Fin n) v, ⟨i, j, v⟩ ∈ a.cells ↔ total? (given triplets i j) = some v

/-! ## The stored cells -/

lemma mem_cells {a : SparseMatrix α m n} {i : Fin m} {j : Fin n} {v : α} :
    ⟨i, j, v⟩ ∈ a.cells ↔ (i, v) ∈ a.columns.get j := by
  simp only [cells, List.mem_flatMap, List.mem_finRange, true_and, List.mem_map, Cell.mk.injEq]
  constructor
  · rintro ⟨_, c, hc, rfl, rfl, rfl⟩
    exact hc
  · intro h
    exact ⟨j, (i, v), h, rfl, rfl, rfl⟩

/-- The stored cells of one column are that column. -/
lemma columnCells_cells (a : SparseMatrix α m n) (j : Fin n) : columnCells a.cells j = a.columns.get j := by
  unfold columnCells cells
  rw [List.filterMap_flatMap, flatMap_eq_single (List.nodup_finRange n) (List.mem_finRange j)]
  · simp [List.filterMap_map]
  · intro j' hne
    simp [List.filterMap_map, hne]

section Insertion

variable [Add α]

lemma ofCells_concat (cells : List (Cell α m n)) (c : Cell α m n) :
    ofCells (cells ++ [c]) = (ofCells cells).insert c :=
  List.foldl_append

/-- Each column of a matrix made of cells is collected from its own cells. -/
lemma get_columns_ofCells (cells : List (Cell α m n)) (j : Fin n) :
    (ofCells cells).columns.get j = Column.collect (columnCells cells j) := by
  induction cells using List.reverseRecOn with
  | nil => exact Vectors.get_replicate ..
  | append_singleton cells c ih =>
    rw [ofCells_concat, columnCells, List.filterMap_append, SparseMatrix.insert, Vectors.get_replaceAt]
    by_cases e : c.col = j
    · subst e
      simp only [if_true, List.filterMap_cons, List.filterMap_nil, Column.collect_concat, ih]
      rfl
    · simp only [e, if_false, List.filterMap_cons, List.filterMap_nil, List.append_nil]
      exact ih

lemma ascends_ofCells (cells : List (Cell α m n)) (j : Fin n) : ((ofCells cells).columns.get j).Ascends := by
  rw [get_columns_ofCells]
  exact Column.ascends_collect _

end Insertion

/-! ## The three arrays -/

section Arrays

variable (a : SparseMatrix α m n)

lemma toList_columns : a.columns.toList = (List.finRange n).map a.columns.get := by
  apply List.ext_getElem
  · simp
  · intro i h h'
    simp [Vectors.get_eq]

lemma columnStarts_eq : a.columnStarts = (a.columns.toList.map List.length).partialSums :=
  List.scanl_map.symm

lemma rowIndices_eq : a.rowIndices = (a.columns.toList.map fun column => column.map (·.1)).flatten := by
  rw [toList_columns, rowIndices, cells, List.map_flatMap, List.flatMap_def, List.map_map]
  simp [Function.comp_def]

lemma values_eq : a.values = (a.columns.toList.map fun column => column.map (·.2)).flatten := by
  rw [toList_columns, values, cells, List.map_flatMap, List.flatMap_def, List.map_map]
  simp [Function.comp_def]

lemma length_values : a.values.length = (a.columns.toList.map List.length).sum := by
  simp [values_eq, Function.comp_def]

/-- The row indices between two column starts are those of one column. -/
lemma extract_rowIndices {j : Fin n} {start stop : Nat} (hstart : start ∈ a.columnStarts[j.val]?)
    (hstop : stop ∈ a.columnStarts[j.val + 1]?) :
    a.rowIndices.extract start stop = (a.columns.get j).map (·.1) := by
  have hlengths : (a.columns.toList.map fun column => column.map (·.1)).map List.length =
      a.columns.toList.map List.length := by
    simp [Function.comp_def]
  -- The two starts are the lengths of the columns in front, added up without and with this column.
  rw [columnStarts_eq, List.getElem?_partialSums] at hstart hstop
  simp only [List.length_map, Vector.length_toList, j.isLt.le, Nat.succ_le_of_lt j.isLt, if_true,
    Option.mem_some_iff] at hstart hstop
  subst hstart hstop
  rw [List.extract_eq_take_drop, ← List.drop_take, rowIndices_eq, ← hlengths,
    List.drop_take_succ_flatten_eq_getElem _ j.val (by simp)]
  simp [Vectors.get_eq]

/-- The arrays are well formed exactly if all columns ascend. -/
lemma isCompressed_iff : a.IsCompressed ↔ ∀ j, (a.columns.get j).Ascends := by
  have hlength : a.columnStarts.length = n + 1 := by
    simp [columnStarts_eq]
  constructor
  · intro h j
    have hstart := List.getElem?_eq_getElem (show j.val < a.columnStarts.length by omega)
    have hstop := List.getElem?_eq_getElem (show j.val + 1 < a.columnStarts.length by omega)
    have hrows := h.rows_ascend j _ hstart _ hstop
    rwa [a.extract_rowIndices hstart hstop, List.pairwise_map] at hrows
  · intro h
    refine ⟨hlength, List.head?_scanl, ?_, ?_, ?_, ?_⟩
    · rw [columnStarts_eq, List.pairwise_iff_getElem]
      intro i j hi hj hij
      rw [List.getElem_partialSums, List.getElem_partialSums]
      exact List.monotone_sum_take _ hij.le
    · rw [columnStarts_eq, List.partialSums, List.getLast?_scanl, ← List.sum_eq_foldl, length_values]
    · rw [rowIndices, values, List.length_map, List.length_map]
    · intro j start hstart stop hstop
      rw [a.extract_rowIndices hstart hstop, List.pairwise_map]
      exact h j

end Arrays

/-! ## Two matrices side by side -/

lemma columnCells_append (cells cells' : List (Cell α m n)) (j : Fin n) :
    columnCells (cells ++ cells') j = columnCells cells j ++ columnCells cells' j :=
  List.filterMap_append

/-- Columns that are renamed without a clash keep their cells. -/
lemma columnCells_map {f : Fin n → Fin k} (hf : f.Injective) (cells : List (Cell α m n)) (j : Fin n) :
    columnCells (cells.map fun c => ⟨c.row, f c.col, c.value⟩) (f j) = columnCells cells j := by
  simp [columnCells, List.filterMap_map, hf.eq_iff]

lemma columnCells_map_of_ne {f : Fin n → Fin k} (cells : List (Cell α m n)) {j : Fin k}
    (h : ∀ j', f j' ≠ j) : columnCells (cells.map fun c => ⟨c.row, f c.col, c.value⟩) j = [] := by
  simp [columnCells, List.filterMap_map, h]

section Beside

variable [Add α] {left : SparseMatrix α m n} {right : SparseMatrix α m k}

/-- Well-formed matrices are placed side by side column by column. -/
lemma columns_beside (hleft : left.IsCompressed) (hright : right.IsCompressed) :
    (left.beside right).columns = left.columns ++ right.columns := by
  rw [isCompressed_iff] at hleft hright
  apply Vectors.ext_get
  intro j
  -- Only the cells of one of the two matrices are in column `j`, and they ascend already.
  rw [beside, get_columns_ofCells, columnCells_append]
  induction j using Fin.addCases with
  | left j =>
    rw [columnCells_map (Fin.castAdd_injective n k),
      columnCells_map_of_ne right.cells fun j' => (Vectors.castAdd_ne_natAdd j j').symm, List.append_nil,
      columnCells_cells, Column.collect_of_ascends (hleft j), Vectors.get_append_castAdd]
  | right j =>
    rw [columnCells_map_of_ne left.cells fun j' => Vectors.castAdd_ne_natAdd j' j,
      columnCells_map (Fin.natAdd_injective k n), List.nil_append, columnCells_cells,
      Column.collect_of_ascends (hright j), Vectors.get_append_natAdd]

lemma columnStarts_beside (hleft : left.IsCompressed) (hright : right.IsCompressed) :
    (left.beside right).columnStarts =
      left.columnStarts ++ right.columnStarts.tail.map (left.values.length + ·) := by
  rw [columnStarts_eq, columns_beside hleft hright, Vector.toList_append, List.map_append,
    List.partialSums_append, ← columnStarts_eq, ← columnStarts_eq, length_values]

lemma rowIndices_beside (hleft : left.IsCompressed) (hright : right.IsCompressed) :
    (left.beside right).rowIndices = left.rowIndices ++ right.rowIndices := by
  rw [rowIndices_eq, columns_beside hleft hright, Vector.toList_append, List.map_append, List.flatten_append,
    ← rowIndices_eq, ← rowIndices_eq]

lemma values_beside (hleft : left.IsCompressed) (hright : right.IsCompressed) :
    (left.beside right).values = left.values ++ right.values := by
  rw [values_eq, columns_beside hleft hright, Vector.toList_append, List.map_append, List.flatten_append,
    ← values_eq, ← values_eq]

lemma toRows_beside [Zero α] (hleft : left.IsCompressed) (hright : right.IsCompressed) (i : Fin m) :
    (left.beside right).toRows.get i = left.toRows.get i ++ right.toRows.get i := by
  apply Vectors.ext_get
  intro j
  simp only [toRows, Vectors.get_ofFn, entry, columns_beside hleft hright]
  induction j using Fin.addCases with
  | left j => simp only [Vectors.get_append_castAdd, Vectors.get_ofFn]
  | right j => simp only [Vectors.get_append_natAdd, Vectors.get_ofFn]

end Beside

/-! ## Triplets and full rows -/

/-- Triplets in range are the cells of a matrix. -/
lemma exists_ofTriplets [Add α] {triplets : List (Nat × Nat × α)} (h : ∀ t ∈ triplets, t.1 < m ∧ t.2.1 < n) :
    ∃ cells : List (Cell α m n), ofTriplets m n triplets = .ok (ofCells cells) ∧
      triplets = cells.map Cell.triplet := by
  have hread : ∃ cells : List (Cell α m n), (triplets.mapM fun (i, j, v) => do
      return Cell.mk (← Fault.position m i) (← Fault.position n j) v) = .ok cells ∧
        triplets = cells.map Cell.triplet := by
    induction triplets with
    | nil => exact ⟨[], rfl, rfl⟩
    | cons t rest ih =>
      obtain ⟨i, j, v⟩ := t
      obtain ⟨⟨hi, hj⟩, hrest⟩ := List.forall_mem_cons.1 h
      obtain ⟨cells, hcells, rfl⟩ := ih hrest
      refine ⟨⟨⟨i, hi⟩, ⟨j, hj⟩, v⟩ :: cells, ?_, rfl⟩
      rw [List.mapM_cons, hcells]
      simp only [Fault.position, dif_pos hi, dif_pos hj]
      rfl
  obtain ⟨cells, hcells, htriplets⟩ := hread
  refine ⟨cells, ?_, htriplets⟩
  rw [ofTriplets, hcells]
  rfl

lemma given_map (cells : List (Cell α m n)) (i : Fin m) (j : Fin n) :
    given (cells.map Cell.triplet) i j =
      (columnCells cells j).filterMap fun c => if c.1 = i then some c.2 else none := by
  unfold given columnCells
  rw [List.filterMap_map, List.filterMap_filterMap]
  congr 1
  funext c
  by_cases e : c.col = j
  · simp [Cell.triplet, Fin.val_inj, e]
  · simp [Cell.triplet, Fin.val_inj, e]

lemma isCompressed_ofCells [Add α] (cells : List (Cell α m n)) : (ofCells cells).IsCompressed :=
  (isCompressed_iff _).2 (ascends_ofCells cells)

lemma lookup_ofCells [Add α] (cells : List (Cell α m n)) (i : Fin m) (j : Fin n) :
    ((ofCells cells).columns.get j).lookup i = total? (given (cells.map Cell.triplet) i j) := by
  rw [get_columns_ofCells, Column.lookup_collect, given_map]

lemma collects_ofCells [Add α] (cells : List (Cell α m n)) :
    (ofCells cells).Collects (cells.map Cell.triplet) where
  compressed := isCompressed_ofCells cells
  stored := by
    intro i j v
    rw [mem_cells, (ascends_ofCells cells j).mem_iff, lookup_ofCells]

/-- Only one matrix stores what is given. -/
lemma Collects.unique [Add α] {a b : SparseMatrix α m n} {triplets : List (Nat × Nat × α)}
    (ha : a.Collects triplets) (hb : b.Collects triplets) : a = b := by
  have hcolumns : a.columns = b.columns := by
    apply Vectors.ext_get
    intro j
    refine ((isCompressed_iff a).1 ha.compressed j).ext ((isCompressed_iff b).1 hb.compressed j) ?_
    rintro ⟨i, v⟩
    rw [← mem_cells, ha.stored, ← hb.stored, mem_cells]
  cases a
  cases b
  cases hcolumns
  rfl

lemma get_toRows_ofCells [Add α] [Zero α] (cells : List (Cell α m n)) (i : Fin m) (j : Fin n) :
    ((ofCells cells).toRows.get i).get j =
      (total? (given (cells.map Cell.triplet) i j)).elim 0 (0 + ·) := by
  rw [← lookup_ofCells, ← (ascends_ofCells cells j).value_eq]
  simp only [toRows, Vectors.get_ofFn, entry]

section FullRows

variable [Zero α] [BEq α]

/-- One column of full rows without its zeros. -/
def nonzeroColumn (rows : Vector (Vector α n) m) (j : Fin n) : Column α m :=
  (List.finRange m).filterMap fun i =>
    if (rows.get i).get j == 0 then none else some (i, (rows.get i).get j)

lemma ascends_nonzeroColumn (rows : Vector (Vector α n) m) (j : Fin n) : (nonzeroColumn rows j).Ascends := by
  refine List.Pairwise.filterMap _ ?_ (List.pairwise_lt_finRange m)
  intro i i' hlt c hc c' hc'
  split at hc
  · cases hc
  · split at hc'
    · cases hc'
    · cases hc
      cases hc'
      exact hlt

lemma columnCells_nonzeroCells (rows : Vector (Vector α n) m) (j : Fin n) :
    columnCells (nonzeroCells rows) j = nonzeroColumn rows j := by
  unfold columnCells nonzeroCells nonzeroColumn
  rw [List.filterMap_flatMap, List.filterMap_eq_flatMap_toList]
  congr 1
  funext i
  rw [List.filterMap_filterMap, List.filterMap_eq_flatMap_toList,
    flatMap_eq_single (List.nodup_finRange n) (List.mem_finRange j)]
  · congr 1
    split <;> simp
  · intro j' hne
    split <;> simp [hne]

lemma get_columns_ofRows [Add α] (rows : Vector (Vector α n) m) (j : Fin n) :
    (ofRows rows).columns.get j = nonzeroColumn rows j := by
  rw [ofRows, get_columns_ofCells, columnCells_nonzeroCells,
    Column.collect_of_ascends (ascends_nonzeroColumn rows j)]

end FullRows

/-- Full rows are stored without their zeros. -/
lemma mem_cells_ofRows {rows : Vector (Vector Rat n) m} {i : Fin m} {j : Fin n} {v : Rat} :
    ⟨i, j, v⟩ ∈ (ofRows rows).cells ↔ v ≠ 0 ∧ (rows.get i).get j = v := by
  rw [mem_cells, get_columns_ofRows, nonzeroColumn]
  simp only [beq_iff_eq, List.mem_filterMap, List.mem_finRange, true_and, Option.ite_none_left_eq_some,
    Option.some.injEq, Prod.mk.injEq]
  constructor
  · rintro ⟨_, hne, rfl, rfl⟩
    exact ⟨hne, rfl⟩
  · rintro ⟨hne, rfl⟩
    exact ⟨i, hne, rfl, rfl⟩

/-- Full rows are read back as they were. -/
lemma toRows_ofRows (rows : Vector (Vector Rat n) m) : (ofRows rows).toRows = rows := by
  apply Vectors.ext_get
  intro i
  apply Vectors.ext_get
  intro j
  have hascends : ((ofRows rows).columns.get j).Ascends := ascends_ofCells _ j
  have hstored : ∀ v, ((ofRows rows).columns.get j).lookup i = some v ↔ v ≠ 0 ∧ (rows.get i).get j = v := by
    intro v
    rw [← mem_cells_ofRows, mem_cells, hascends.mem_iff]
  simp only [toRows, Vectors.get_ofFn, entry, hascends.value_eq]
  cases hlookup : ((ofRows rows).columns.get j).lookup i with
  | none =>
    -- What is not stored is zero, since anything else would be stored.
    by_contra hne
    have hsome := (hstored _).2 ⟨Ne.symm hne, rfl⟩
    rw [hlookup] at hsome
    cases hsome
  | some v =>
    obtain ⟨-, hv⟩ := (hstored v).1 hlookup
    rw [hv]
    exact zero_add v

/-- The rows as given, of equal length, are read back. -/
lemma exists_ofDense {rows : Array (Array Rat)} (h : ∀ row ∈ rows, row.size = n) :
    ∃ full : Vector (Vector Rat n) rows.size, ofDense n rows = .ok (ofRows full) ∧
      full.toArray.map (·.toArray) = rows := by
  refine ⟨⟨rows.pmap Vector.mk h, rows.size_pmap⟩, dif_pos h, ?_⟩
  apply Array.ext
  · simp
  · intro i hi hi'
    simp

/-- The constructors are faithful. Triplets in range make the one matrix that stores them, whose full rows hold
the totals, over exact scalars the sums; full rows are read back as they were, and only what is not zero is stored;
and of two matrices side by side the arrays are those of the first followed by those of the second. -/
theorem construction_faithful :
    (∀ {α : Type} [Add α] [Zero α] {m n : Nat} (triplets : List (Nat × Nat × α)),
      (∀ t ∈ triplets, t.1 < m ∧ t.2.1 < n) →
      ∃ a : SparseMatrix α m n, ofTriplets m n triplets = .ok a ∧ a.Collects triplets ∧
        (∀ b : SparseMatrix α m n, b.Collects triplets → b = a) ∧
        ∀ (i : Fin m) (j : Fin n), (a.toRows.get i).get j = (total? (given triplets i j)).elim 0 (0 + ·)) ∧
    (∀ {m n : Nat} (triplets : List (Nat × Nat × Rat)), (∀ t ∈ triplets, t.1 < m ∧ t.2.1 < n) →
      ∃ a : SparseMatrix Rat m n, ofTriplets m n triplets = .ok a ∧
        ∀ (i : Fin m) (j : Fin n), (a.toRows.get i).get j = (given triplets i j).sum) ∧
    (∀ {n : Nat} (rows : Array (Array Rat)), (∀ row ∈ rows, row.size = n) →
      ∃ a : SparseMatrix Rat rows.size n, ofDense n rows = .ok a ∧ a.IsCompressed ∧
        a.toRows.toArray.map (·.toArray) = rows ∧
        ∀ (i : Fin rows.size) (j : Fin n) v, ⟨i, j, v⟩ ∈ a.cells ↔ v ≠ 0 ∧ rows[i.val][j.val]? = some v) ∧
    (∀ {α : Type} [Add α] [Zero α] {m n k : Nat} (left : SparseMatrix α m n) (right : SparseMatrix α m k),
      left.IsCompressed → right.IsCompressed →
      ∃ whole : SparseMatrix α m (n + k), hstack left right = .ok whole ∧ whole.IsCompressed ∧
        whole.columnStarts = left.columnStarts ++ right.columnStarts.tail.map (left.values.length + ·) ∧
        whole.rowIndices = left.rowIndices ++ right.rowIndices ∧
        whole.values = left.values ++ right.values ∧
        ∀ i, whole.toRows.get i = left.toRows.get i ++ right.toRows.get i) := by
  refine ⟨?_, ?_, ?_, ?_⟩
  · intro α _ _ m n triplets h
    obtain ⟨cells, hcells, rfl⟩ := exists_ofTriplets h
    exact ⟨_, hcells, collects_ofCells cells, fun b hb => hb.unique (collects_ofCells cells),
      get_toRows_ofCells cells⟩
  · intro m n triplets h
    obtain ⟨cells, hcells, rfl⟩ := exists_ofTriplets h
    refine ⟨_, hcells, ?_⟩
    intro i j
    rw [get_toRows_ofCells, elim_total?]
  · intro n rows h
    obtain ⟨full, hfull, hrows⟩ := exists_ofDense h
    refine ⟨_, hfull, isCompressed_ofCells _, ?_, ?_⟩
    · rw [toRows_ofRows, hrows]
    · intro i j v
      have hentry : rows[i.val][j.val]? = some ((full.get i).get j) := by
        simp only [← hrows, Array.getElem_map]
        exact Array.getElem?_eq_getElem (by simp)
      rw [mem_cells_ofRows, hentry, Option.some.injEq]
  · intro α _ _ m n k left right hleft hright
    exact ⟨left.beside right, dif_pos rfl, isCompressed_ofCells _, columnStarts_beside hleft hright,
      rowIndices_beside hleft hright, values_beside hleft hright, toRows_beside hleft hright⟩

/-- Two values that cancel stay stored, also when another matrix is placed beside them. -/
theorem construction_faithful_cancelled :
    let triplets : List (Nat × Nat × Rat) := [(1, 2, 1), (0, 0, 4), (1, 2, -1)]
    let rows : Array (Array Rat) := #[#[0, 5], #[3, 0]]
    (∀ t ∈ triplets, t.1 < 2 ∧ t.2.1 < 3) ∧ (∀ row ∈ rows, row.size = 2) ∧
    ∃ (left : SparseMatrix Rat 2 3) (right : SparseMatrix Rat 2 2) (whole : SparseMatrix Rat 2 5),
      ofTriplets 2 3 triplets = .ok left ∧ ⟨1, 2, 0⟩ ∈ left.cells ∧ (left.toRows.get 1).get 2 = 0 ∧
      ofDense 2 rows = .ok right ∧ right.toRows.toArray.map (·.toArray) = rows ∧
      hstack left right = .ok whole ∧ whole.IsCompressed ∧ whole.values = left.values ++ right.values ∧
      whole.toRows.get 1 = left.toRows.get 1 ++ right.toRows.get 1 := by
  intro triplets rows
  have htriplets : ∀ t ∈ triplets, t.1 < 2 ∧ t.2.1 < 3 := by
    decide
  have hrows : ∀ row ∈ rows, row.size = 2 := by
    decide
  obtain ⟨hbuild, hsum, hdense, hbeside⟩ := construction_faithful
  obtain ⟨left, hleft, hcollects, -, -⟩ := hbuild triplets htriplets
  obtain ⟨left', hleft', hentry⟩ := hsum triplets htriplets
  obtain rfl : left = left' := Except.ok.inj (hleft.symm.trans hleft')
  obtain ⟨right, hright, hcompressed, hback, -⟩ := hdense rows hrows
  obtain ⟨whole, hwhole, hcompressed', -, -, hvalues, htoRows⟩ :=
    hbeside left right hcollects.compressed hcompressed
  have hzero : (given triplets (1 : Fin 2) (2 : Fin 3)).sum = 0 := by
    decide +kernel
  have htotal : total? (given triplets (1 : Fin 2) (2 : Fin 3)) = some 0 := by
    decide +kernel
  exact ⟨htriplets, hrows, left, right, whole, hleft, (hcollects.stored 1 2 0).2 htotal, (hentry 1 2).trans hzero,
    hright, hback, hwhole, hcompressed', hvalues, htoRows 1⟩

end SparseMatrix

end IntegerProgram
