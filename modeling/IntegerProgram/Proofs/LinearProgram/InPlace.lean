import Mathlib
import IntegerProgram.Proofs.LinearProgram.StandardForm
import IntegerProgram.Proofs.Tableau.InPlace

/-!
# The simplex method in place

The two-phase method on a stated linear program, from the writing of the standard form to the reading of the
point, on arrays whose lengths nobody has checked. Once the stated program passes its check, no index is out
of range and no length is wrong, and the report is that of the method on tableaux
(`LinearProblem.solveInPlace_eq`).
-/

namespace IntegerProgram

variable {α : Type} [Scalar α] {m n : Nat}

/-! ## The method -/

/-- Copies a row and its right-hand side. -/
def Workspace.copyRow (a : Grid α) (rhs : Array α) (cols : Nat) (grid : Grid α) (i : Nat) :
    Except Fault (Grid α) := do
  let grid ← grid.sweep cols i fun _ j => do
    let v ← a.entry i j
    return fun _ => v
  let v ← Fault.entry rhs i
  grid.update (fun _ => v) i cols

/-- The tableau of the given rows, right-hand sides and basic columns, whose objective row is zero. -/
def Workspace.make (a : Grid α) (rhs : Array α) (basis : Array Nat) (rows cols : Nat) :
    Except Fault (Workspace α) := do
  if rhs.size ≠ rows then throw (.wrongLength rows rhs.size)
  if basis.size ≠ rows then throw (.wrongLength rows basis.size)
  let grid ← Fault.loop rows (copyRow a rhs cols) (.tabulate (rows + 1) (cols + 1) fun _ _ => 0)
  return ⟨rows, cols, grid, basis⟩

/-- A standard form in the making. -/
structure Draft (α : Type) where
  grid : Grid α
  rhs : Array α
  basis : Array Nat

/-- Writes the row of an equation. -/
def Draft.equation (vars real : Nat) (dense : Grid α) (draft : Draft α) (i : Nat) :
    Except Fault (Draft α) := do
  let v ← Fault.entry draft.rhs i
  let grid ← draft.grid.sweep vars i fun _ j => do
    let a ← dense.entry i j
    return fun _ => LinearProgram.signOf v * a
  let rhs ← Fault.modify (· * LinearProgram.signOf v) draft.rhs i
  let grid ← grid.update (fun _ => 1) i (real + i)
  return ⟨grid, rhs, draft.basis.push (real + i)⟩

/-- Writes the row of an upper bound. -/
def Draft.cap (vars equations : Nat) (caps : Array (Nat × α)) (draft : Draft α) (s : Nat) :
    Except Fault (Draft α) := do
  let (j, width) ← Fault.entry caps s
  let grid ← draft.grid.update (fun _ => 1) (equations + s) j
  let grid ← grid.update (fun _ => 1) (equations + s) (vars + s)
  return ⟨grid, draft.rhs.push width, draft.basis.push (vars + s)⟩

namespace LinearProblem

/-- The variables with an upper bound, in order, each with the width of its interval. -/
def caps (p : LinearProblem α m n) : Array (Nat × α) :=
  (p.bounds.toList.zipIdx.filterMap fun (i, j) => i.upper.map fun u => (j, u - i.lower)).toArray

/-- The number of real columns. -/
def realCount (p : LinearProblem α m n) : Nat :=
  p.cost.size + p.caps.size

/-- The number of columns. -/
def columnCount (p : LinearProblem α m n) : Nat :=
  p.realCount + p.rhs.size

/-- Writes the rows of the standard form below one another. -/
def draft (p : LinearProblem α m n) (shifted : Array α) : Except Fault (Draft α) := do
  let dense : Grid α := (p.matrix.toRows.map (·.toArray)).toArray
  let draft ← Fault.loop p.rhs.size (Draft.equation p.cost.size p.realCount dense)
    ⟨.tabulate (p.rhs.size + p.caps.size) p.columnCount fun _ _ => 0, shifted, #[]⟩
  Fault.loop p.caps.size (Draft.cap p.cost.size p.rhs.size p.caps) draft

/-- Builds the standard form. -/
def build (p : LinearProblem α m n) : Except Fault (Workspace α) := do
  let shifted ← p.matrix.mulAdd? (p.bounds.map (·.lower)) p.rhs (-1) 1
  let draft ← p.draft shifted.toArray
  Workspace.make draft.grid draft.rhs draft.basis (p.rhs.size + p.caps.size) p.columnCount

/-- The costs of the first phase. -/
def infeasibilityCost (p : LinearProblem α m n) : Array α :=
  Array.replicate p.realCount 0 ++ Array.replicate p.rhs.size 1

/-- Copies the cost of a variable. -/
def copyCost (p : LinearProblem α m n) (costs : Array α) (j : Nat) : Except Fault (Array α) := do
  let c ← Fault.entry p.cost j
  Fault.modify (fun _ => c) costs j

/-- The costs of the second phase. -/
def realCost (p : LinearProblem α m n) : Except Fault (Array α) :=
  Fault.loop p.cost.size p.copyCost (Array.replicate p.columnCount 0)

/-- Adds the right-hand side of a row to the variable that is basic there. -/
def readRow (p : LinearProblem α m n) (w : Workspace α) (x : Array α) (row : Nat) :
    Except Fault (Array α) := do
  let col ← Fault.entry w.basis row
  if col < p.cost.size then
    let v ← w.grid.entry row w.cols
    Fault.modify (· + max v 0) x col
  else return x

/-- What follows a first phase that ended in a workspace after `spent` pivots. -/
def finishInPlace (p : LinearProblem α m n) (settings : SimplexSettings α) (w : Workspace α)
    (spent : Nat) (journal : List (Step α)) : Except Fault (LinearReport α n) := do
  let infeasibility := -(← w.grid.entry w.rows w.cols)
  let journal := journal ++ [.phaseOne spent infeasibility]
  if settings.feasibilityTol < infeasibility then return ⟨.ok .infeasible, journal⟩
  let (w, journal) ← w.expel p.realCount settings.pivotTol journal
  let w ← w.setObjective (← p.realCost)
  let (ending, w, spent, journal) ←
    Workspace.run p.realCount settings (settings.maxPivots - spent) w spent journal
  match ending with
  | .unbounded => return ⟨.ok .unbounded, journal⟩
  | .outOfPivots => return ⟨.ok .pivotLimit, journal⟩
  | .optimal =>
    let x ← Fault.loop w.rows (p.readRow w) (p.bounds.map (·.lower))
    return ⟨.ok (.optimal (← Fault.vector n x) (p.objective x)), journal ++ [.phaseTwo spent (p.objective x)]⟩

/-- Solves a stated linear program in place, once it is found free of defects. -/
def solveInPlace (p : LinearProblem α m n) (settings : SimplexSettings α) :
    Except Fault (LinearReport α n) := do
  match p.check with
  | .error defect => return ⟨.error (.invalid defect), []⟩
  | .ok _ =>
    if p.bounds.any Interval.isEmpty then return ⟨.ok .infeasible, []⟩
    let w ← p.build
    let w ← w.setObjective p.infeasibilityCost
    let (ending, w, spent, journal) ← Workspace.run p.columnCount settings settings.maxPivots w 0 []
    match ending with
    | .unbounded => return ⟨.error .infeasibilityUnbounded, journal⟩
    | .outOfPivots => return ⟨.ok .pivotLimit, journal⟩
    | .optimal => p.finishInPlace settings w spent journal

end LinearProblem

/-! ## The standard form -/

namespace LinearProgram

/-- The program as it is stated. -/
def stated (p : LinearProgram α m n) : LinearProblem α m n :=
  ⟨p.matrix, p.cost.toArray, p.rhs.toArray, p.bounds.toArray⟩

end LinearProgram

lemma LinearProblem.eq_stated {p : LinearProblem α m n} {program : LinearProgram α m n}
    (h : p.check = .ok program) : p = program.stated := by
  unfold check at h
  split at h
  · split at h
    · split at h
      · split at h
        · cases h
        · split at h
          · cases h
            rfl
          · cases h
      · cases h
    · cases h
  · cases h

namespace Tableau

/-- A table in which only the rows before `k` are written. -/
def partly (t : Tableau α m n) (k x y : Nat) : α :=
  if x < k then (t.line x).at y else 0

lemma copyRow_partly (t : Tableau α m n) {k : Nat} (hk : k < m) :
    Workspace.copyRow (.tabulate m n fun i => (t.line i).at) (upTo m fun i => (t.line i).rhs) n
      (.tabulate (m + 1) (n + 1) (t.partly k)) k = .ok (.tabulate (m + 1) (n + 1) (t.partly (k + 1))) := by
  unfold Workspace.copyRow
  rw [Grid.sweep_tabulate (f := fun j _ => (t.line k).at j) (by omega) n.le_succ, Fault.ok_bind,
    Fault.entry_upTo hk, Fault.ok_bind, Grid.update_tabulate (by omega) n.lt_succ_self]
  · congr 1
    apply Grid.tabulate_congr
    intro x _ y hy
    by_cases hx : x = k
    · subst hx
      rcases Nat.lt_succ_iff_lt_or_eq.1 hy with hy | rfl
      · simp [partly, hy, hy.ne]
      · simp [partly]
    · grind [partly]
  · intro _ _ j hj
    rw [Grid.entry_tabulate hk hj]
    rfl

lemma make_workspace {t : Tableau α m n} (hzero : t.objective = ⟨Vector.replicate n 0, 0⟩) :
    Workspace.make (.tabulate m n fun i => (t.line i).at) (upTo m fun i => (t.line i).rhs)
      (t.basis.map Fin.val).toArray m n = .ok t.workspace := by
  have hloop := Fault.loop_eq (fun k => Grid.tabulate (m + 1) (n + 1) (t.partly k))
    fun k hk => copyRow_partly t hk
  have hgrid : Grid.tabulate (m + 1) (n + 1) (t.partly m) = t.grid := by
    apply grid_eq
    intro x hx y _
    rcases Nat.lt_succ_iff_lt_or_eq.1 hx with hx | rfl
    · exact if_pos hx
    · rw [line_length, hzero, partly, if_neg x.lt_irrefl, Row.at]
      split
      · rw [Vectors.get_replicate]
      · rfl
  unfold Workspace.make
  rw [if_neg (by simp), if_neg (by simp)]
  have hstart : Grid.tabulate (m + 1) (n + 1) (fun _ _ => 0) = .tabulate (m + 1) (n + 1) (t.partly 0) := rfl
  rw [hstart]
  simp only [hloop, hgrid, Fault.ok_bind]
  rfl

end Tableau

namespace LinearProgram

variable (p : LinearProgram α m n)

lemma get_equationRow (i : Fin m) (j : Fin p.columnCount) :
    (p.equationRow p.shiftedRhs i).coeffs.get j =
      if h : j.val < n then signOf (p.shiftedRhs.get i) * p.matrix.entry i ⟨j, h⟩
      else if j.val = n + p.caps.length + i.val then 1 else 0 := by
  unfold equationRow
  induction j using p.column_cases with
  | hvar j =>
    rw [columnVector_variable, dif_pos (show (p.variableColumn j).val < n from j.isLt)]
    rfl
  | hslack s =>
    rw [columnVector_slack, val_slackColumn, dif_neg (by omega), if_neg (by omega)]
  | hart k =>
    rw [columnVector_artificial, val_artificialColumn, dif_neg (by omega)]
    simp [Fin.ext_iff]

lemma get_capRow (s : Fin p.caps.length) (j : Fin p.columnCount) :
    (p.capRow s).coeffs.get j =
      if j.val = (p.caps.get s).1.val ∨ j.val = n + s.val then 1 else 0 := by
  unfold capRow
  induction j using p.column_cases with
  | hvar j =>
    have hslack : ¬ j.val = n + s.val := by omega
    rw [columnVector_variable, val_variableColumn]
    simp only [hslack, or_false, Fin.ext_iff]
  | hslack k =>
    have hvar : ¬ n + k.val = (p.caps.get s).1.val := by omega
    rw [columnVector_slack, val_slackColumn]
    simp only [hvar, false_or, Nat.add_left_cancel_iff, Fin.ext_iff]
  | hart k =>
    rw [columnVector_artificial, val_artificialColumn, if_neg (by omega)]

lemma caps_stated : p.stated.caps = (p.caps.map fun cap => (cap.1.val, cap.2)).toArray := by
  have hzip : p.bounds.toArray.toList.zipIdx = (List.finRange n).map fun j => (p.bounds.get j, j.val) := by
    apply List.ext_getElem
    · simp
    · intro j hj hj'
      simp [Vectors.get_eq]
  unfold LinearProblem.caps caps stated
  rw [hzip, List.filterMap_map, List.map_filterMap]
  congr 2
  funext j
  simp only [Function.comp, Option.map_map]
  rfl

omit [Scalar α] in
@[simp] lemma size_cost_stated : p.stated.cost.size = n :=
  p.cost.size_toArray

omit [Scalar α] in
@[simp] lemma size_rhs_stated : p.stated.rhs.size = m :=
  p.rhs.size_toArray

@[simp] lemma size_caps_stated : p.stated.caps.size = p.caps.length := by
  rw [caps_stated, List.size_toArray, List.length_map]

@[simp] lemma realCount_stated : p.stated.realCount = p.realCount := by
  unfold LinearProblem.realCount
  rw [size_caps_stated, size_cost_stated]

@[simp] lemma columnCount_stated : p.stated.columnCount = p.columnCount := by
  unfold LinearProblem.columnCount
  rw [realCount_stated, size_rhs_stated]

lemma entry_caps_stated (s : Fin p.caps.length) :
    Fault.entry p.stated.caps s.val = .ok ((p.caps.get s).1.val, (p.caps.get s).2) := by
  rw [caps_stated]
  unfold Fault.entry
  rw [List.getElem?_toArray, List.getElem?_map, List.getElem?_eq_getElem s.isLt]
  rfl

/-- The basic column with which a row of the standard form starts. -/
def firstBasis (x : Nat) : Nat :=
  if x < m then n + p.caps.length + x else n + (x - m)

lemma val_basis_standardForm (row : Fin p.rowCount) :
    (p.standardForm.basis.get row).val = p.firstBasis row.val := by
  unfold firstBasis
  induction row using p.row_cases with
  | heq i => simp
  | hcap s => simp

lemma basis_standardForm :
    (p.standardForm.basis.map Fin.val).toArray = upTo p.rowCount p.firstBasis := by
  apply Array.ext
  · simp
  · intro k hk _
    have hk : k < p.rowCount := by simpa using hk
    simp only [upTo, Array.getElem_ofFn, Vector.getElem_toArray, Vector.getElem_map]
    exact p.val_basis_standardForm ⟨k, hk⟩

lemma line_equation (i : Fin m) : p.standardForm.line i.val = p.equationRow p.shiftedRhs i := by
  rw [← rows_equation, ← Tableau.line_val]
  rfl

lemma line_cap (s : Fin p.caps.length) : p.standardForm.line (m + s.val) = p.capRow s := by
  rw [← rows_cap, ← Tableau.line_val]
  rfl

/-- The right-hand sides when the rows before `k` are written. -/
def partlyRhs (k : Nat) : Array α :=
  upTo (max m k) fun x => if x < k then (p.standardForm.line x).rhs else Row.at ⟨p.shiftedRhs, 0⟩ x

/-- The draft of the standard form in which only the rows before `k` are written. -/
def draft (k : Nat) : Draft α :=
  ⟨.tabulate p.rowCount p.columnCount (p.standardForm.partly k), p.partlyRhs k, upTo k p.firstBasis⟩

lemma entry_dense (i : Fin m) (j : Fin n) :
    Grid.entry (p.matrix.toRows.map (·.toArray)).toArray i j = .ok (p.matrix.entry i j) := by
  unfold Grid.entry
  rw [Fault.entry_toArray, Fault.ok_bind, Vectors.get_map, Fault.entry_toArray, SparseMatrix.toRows,
    Vectors.get_ofFn, Vectors.get_ofFn]

lemma entry_partlyRhs (i : Fin m) : Fault.entry (p.partlyRhs i) i = .ok (p.shiftedRhs.get i) := by
  unfold partlyRhs
  rw [Fault.entry_upTo (lt_max_of_lt_left i.isLt), if_neg (Nat.lt_irrefl _), Row.at_val]

lemma modify_partlyRhs (i : Fin m) :
    Fault.modify (· * signOf (p.shiftedRhs.get i)) (p.partlyRhs i) i = .ok (p.partlyRhs (i + 1)) := by
  unfold partlyRhs
  rw [Fault.modify_upTo (lt_max_of_lt_left i.isLt), max_eq_left i.isLt.le, max_eq_left i.isLt]
  congr 1
  apply upTo_congr
  intro x _
  by_cases hx : x = i.val
  · subst hx
    rw [if_pos rfl, if_neg (Nat.lt_irrefl _), if_pos (Nat.lt_succ_self _), Row.at_val, line_equation]
    rfl
  · grind

lemma push_partlyRhs (s : Fin p.caps.length) :
    (p.partlyRhs (m + s)).push (p.caps.get s).2 = p.partlyRhs (m + s + 1) := by
  have hwidth : (p.caps.get s).2 = (p.standardForm.line (m + s)).rhs := by
    rw [line_cap]
    rfl
  unfold partlyRhs
  rw [max_eq_right (by omega), max_eq_right (by omega), hwidth]
  rw [← push_upTo, if_pos (Nat.lt_succ_self _)]
  congr 1
  apply upTo_congr
  intro x hx
  rw [if_pos hx, if_pos (by omega)]

lemma equation_draft (i : Fin m) :
    (p.draft i).equation n p.realCount (p.matrix.toRows.map (·.toArray)).toArray i = .ok (p.draft (i + 1)) := by
  have hrows : p.rowCount = m + p.caps.length := rfl
  have hcols : p.columnCount = n + p.caps.length + m := rfl
  have hline : ∀ j (hj : j < p.columnCount), (p.standardForm.line i).at j =
      if h : j < n then signOf (p.shiftedRhs.get i) * p.matrix.entry i ⟨j, h⟩
      else if j = n + p.caps.length + i then 1 else 0 := by
    intro j hj
    rw [line_equation, Row.at_val _ ⟨j, hj⟩, get_equationRow]
  have hfirst : p.realCount + i.val = p.firstBasis i := by
    rw [firstBasis, if_pos i.isLt]
  unfold Draft.equation draft
  rw [entry_partlyRhs, Fault.ok_bind, modify_partlyRhs,
    Grid.sweep_tabulate (f := fun j _ => (p.standardForm.line i).at j) (by omega) (by omega),
    Fault.ok_bind, Fault.ok_bind, Grid.update_tabulate (by omega) (show n + p.caps.length + i.val < _ by omega), Fault.ok_bind,
    hfirst, push_upTo]
  · show Except.ok _ = Except.ok _
    congr 2
    apply Grid.tabulate_congr
    intro x _ y hy
    by_cases hx : x = i.val
    · subst hx
      have hy' := hline y hy
      grind [Tableau.partly, firstBasis]
    · grind [Tableau.partly]
  · intro _ _ j hj
    rw [p.entry_dense i ⟨j, hj⟩, hline j (by omega), dif_pos hj]
    rfl

lemma cap_draft (s : Fin p.caps.length) :
    (p.draft (m + s)).cap n m p.stated.caps s = .ok (p.draft (m + s + 1)) := by
  have hrows : p.rowCount = m + p.caps.length := rfl
  have hcols : p.columnCount = n + p.caps.length + m := rfl
  have hline : ∀ j (hj : j < p.columnCount), (p.standardForm.line (m + s)).at j =
      if j = (p.caps.get s).1.val ∨ j = n + s then 1 else 0 := by
    intro j hj
    rw [line_cap, Row.at_val _ ⟨j, hj⟩, get_capRow]
  have hfirst : n + s.val = p.firstBasis (m + s) := by
    rw [firstBasis, if_neg (by omega), Nat.add_sub_cancel_left]
  unfold Draft.cap draft
  rw [entry_caps_stated, Fault.ok_bind]
  simp only [push_partlyRhs]
  rw [Grid.update_tabulate (by omega) (by omega), Fault.ok_bind, Grid.update_tabulate (by omega) (by omega),
    Fault.ok_bind, hfirst, push_upTo]
  show Except.ok _ = Except.ok _
  congr 2
  apply Grid.tabulate_congr
  intro x _ y hy
  by_cases hx : x = m + s.val
  · subst hx
    have hy' := hline y hy
    grind [Tableau.partly]
  · grind [Tableau.partly]

lemma draft_zero :
    p.draft 0 = ⟨.tabulate p.rowCount p.columnCount fun _ _ => 0, p.shiftedRhs.toArray, #[]⟩ := by
  unfold draft partlyRhs
  rw [Row.toArray_coeffs ⟨p.shiftedRhs, 0⟩, Nat.max_zero]
  rfl

lemma draft_rowCount :
    p.draft p.rowCount = ⟨.tabulate p.rowCount p.columnCount fun i => (p.standardForm.line i).at,
      upTo p.rowCount fun i => (p.standardForm.line i).rhs, (p.standardForm.basis.map Fin.val).toArray⟩ := by
  unfold draft partlyRhs
  rw [basis_standardForm, max_eq_right (Nat.le_add_right m _)]
  congr 1
  · apply Grid.tabulate_congr
    intro x hx y _
    exact if_pos hx
  · apply upTo_congr
    intro x hx
    exact if_pos hx

omit [Scalar α] in
lemma lower_stated : p.stated.bounds.map (·.lower) = p.lower.toArray := by
  simp [stated, lower]

lemma mulAdd?_stated :
    p.stated.matrix.mulAdd? (p.stated.bounds.map (·.lower)) p.stated.rhs (-1) 1 = .ok p.shiftedRhs := by
  rw [lower_stated]
  exact SparseMatrix.mulAdd?_toArray ..

lemma draft_stated : p.stated.draft p.shiftedRhs.toArray = .ok (p.draft p.rowCount) := by
  have hequations := Fault.loop_eq p.draft fun k (hk : k < m) => p.equation_draft ⟨k, hk⟩
  have hcaps := Fault.loop_eq (fun s => p.draft (m + s)) fun s (hs : s < p.caps.length) => p.cap_draft ⟨s, hs⟩
  unfold LinearProblem.draft
  rw [realCount_stated, columnCount_stated, size_caps_stated, size_rhs_stated, size_cost_stated,
    ← draft_zero]
  exact (congrArg (· >>= _) hequations).trans hcaps

lemma build_stated : p.stated.build = .ok p.standardForm.workspace := by
  unfold LinearProblem.build
  rw [mulAdd?_stated, Fault.ok_bind, draft_stated, Fault.ok_bind, columnCount_stated, size_caps_stated,
    size_rhs_stated, draft_rowCount]
  exact p.standardForm.make_workspace rfl

/-! ## Costs and points -/

lemma infeasibilityCost_stated : p.stated.infeasibilityCost = p.infeasibilityCost.toArray := by
  unfold LinearProblem.infeasibilityCost
  rw [realCount_stated, size_rhs_stated]
  apply Array.ext
  · simp
  · intro c hc hc'
    have hc : c < p.columnCount := by simpa using hc'
    have hget := p.get_infeasibilityCost ⟨c, hc⟩
    rw [Vectors.get_eq] at hget
    simp only [Array.getElem_append, Array.size_replicate, Array.getElem_replicate, Vector.getElem_toArray, hget]
    split <;> rfl

/-- The costs of the second phase when those of the first `k` variables are copied. -/
def partlyCost (k : Nat) : Array α :=
  upTo p.columnCount fun j => if j < k then Row.at ⟨p.realCost, 0⟩ j else 0

lemma copyCost_partlyCost (j : Fin n) :
    p.stated.copyCost (p.partlyCost j) j = .ok (p.partlyCost (j + 1)) := by
  have hcols : j.val < p.columnCount := (p.variableColumn j).isLt
  have hcost : p.cost.get j = Row.at ⟨p.realCost, 0⟩ j := by
    rw [Row.at_val _ ⟨j, hcols⟩, get_realCost, dif_pos j.isLt]
  have hentry : Fault.entry p.stated.cost j = .ok (p.cost.get j) := Fault.entry_toArray p.cost j
  unfold LinearProblem.copyCost partlyCost
  rw [hentry, Fault.ok_bind, Fault.modify_upTo hcols, hcost]
  congr 1
  apply upTo_congr
  intro k _
  grind

lemma realCost_stated : p.stated.realCost = .ok p.realCost.toArray := by
  have hloop := Fault.loop_eq p.partlyCost fun k (hk : k < n) => p.copyCost_partlyCost ⟨k, hk⟩
  have hstart : Array.replicate p.columnCount 0 = p.partlyCost 0 := by
    apply Array.ext
    · simp [partlyCost]
    · simp [partlyCost, upTo]
  have hend : p.partlyCost n = p.realCost.toArray := by
    rw [Row.toArray_coeffs ⟨p.realCost, 0⟩]
    apply upTo_congr
    intro c hc
    split
    · rfl
    · rename_i hn
      rw [Row.at_val _ ⟨c, hc⟩, get_realCost, dif_neg hn]
  unfold LinearProblem.realCost
  rw [size_cost_stated, columnCount_stated, hstart, hloop, hend]

lemma readRow_stated (t : Tableau α p.rowCount p.columnCount) (x : Vector α n) (row : Fin p.rowCount) :
    p.stated.readRow t.workspace x.toArray row = .ok (p.readRow t x row).toArray := by
  unfold LinearProblem.readRow readRow
  rw [Tableau.basis_workspace, Fault.ok_bind, size_cost_stated, Tableau.grid_workspace, Tableau.cols_workspace,
    Tableau.entry_grid (by omega) (by omega), Tableau.line_val, Row.at_length, Fault.ok_bind]
  split
  · rename_i hcol
    rw [Fault.modify_toArray _ x ⟨_, hcol⟩]
    rfl
  · rfl

lemma point_stated (t : Tableau α p.rowCount p.columnCount) :
    Fault.loop p.rowCount (p.stated.readRow t.workspace) (p.stated.bounds.map (·.lower)) =
      .ok (p.point t).toArray := by
  rw [lower_stated]
  exact Fault.loop_eq_foldl Vector.toArray (p.readRow_stated t) p.lower

lemma finishInPlace_stated (settings : SimplexSettings α) (t : Tableau α p.rowCount p.columnCount) (spent : Nat)
    (journal : List (Step α)) :
    p.stated.finishInPlace settings t.workspace spent journal =
      .ok ⟨(p.solveFrom settings spent t).result, journal ++ (p.solveFrom settings spent t).journal⟩ := by
  have hvalue : t.workspace.grid.entry t.workspace.rows t.workspace.cols = .ok t.objective.rhs := by
    rw [Tableau.grid_workspace, Tableau.rows_workspace, Tableau.cols_workspace,
      Tableau.entry_grid (by omega) (by omega), Tableau.line_length, Row.at_length]
  have hreal : p.realCount ≤ p.columnCount := Nat.le_add_right _ _
  unfold LinearProblem.finishInPlace solveFrom
  rw [hvalue, Fault.ok_bind, realCount_stated, realCost_stated]
  by_cases hinfeasible : settings.feasibilityTol < t.objectiveValue
  · rw [if_pos hinfeasible]
    exact if_pos hinfeasible
  · rw [if_neg hinfeasible]
    refine (if_neg hinfeasible).trans ?_
    rw [Tableau.expel_workspace hreal]
    simp only [Fault.ok_bind, Tableau.setObjective_workspace, Tableau.run_workspace, phaseTwo, betweenPhases]
    cases hending : (((t.expel p.realCount settings.pivotTol).1.withObjective p.realCost).run p.realCount settings
        (settings.maxPivots - spent)).ending with
    | optimal =>
      simp only [Tableau.rows_workspace, point_stated, Fault.ok_bind, Fault.vector_toArray, List.append_assoc,
        List.cons_append, List.nil_append]
      rfl
    | unbounded =>
      simp only [List.append_assoc, List.cons_append, List.nil_append]
      rfl
    | outOfPivots =>
      simp only [List.append_assoc, List.cons_append, List.nil_append]
      rfl

end LinearProgram

/-- The method in place faults nowhere and reports what the method on tableaux reports. -/
lemma LinearProblem.solveInPlace_eq (p : LinearProblem α m n) (settings : SimplexSettings α) :
    p.solveInPlace settings = .ok (p.solve settings) := by
  unfold solveInPlace solve
  cases hcheck : p.check with
  | error defect => rfl
  | ok program =>
    obtain rfl := eq_stated hcheck
    have hempty : program.stated.bounds.any Interval.isEmpty = program.bounds.any Interval.isEmpty :=
      Vector.any_toArray
    simp only [LinearProgram.solve]
    rw [hempty]
    split
    · rfl
    · simp only [program.build_stated, Fault.ok_bind, program.infeasibilityCost_stated,
        program.columnCount_stated, Tableau.setObjective_workspace, Tableau.run_workspace, Nat.zero_add,
        List.nil_append, LinearProgram.phaseOne]
      cases ((program.standardForm.withObjective program.infeasibilityCost).run program.columnCount settings
          settings.maxPivots).ending with
      | optimal => exact program.finishInPlace_stated settings _ _ _
      | unbounded => rfl
      | outOfPivots => rfl

end IntegerProgram
