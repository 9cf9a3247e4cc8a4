import Mathlib
import IntegerProgram.LinearProgram.TwoPhase
import IntegerProgram.Proofs.BranchBound.Selection
import IntegerProgram.Proofs.Rounding
import IntegerProgram.Proofs.Tables

/-!
# Tableaux in place

A tableau as a table of numbers that is overwritten entry by entry: the objective row below the others, the
right-hand sides in the last column, and the basic columns as plain numbers. No length and no index is
checked beforehand, so every reading and every writing can fault. Started from the table of a tableau nothing
does, and the operations come to the tables of their counterparts:

* `Workspace.pivot` and `Workspace.setObjective` do what `Tableau.pivot` and `Tableau.withObjective` do.
* `Workspace.entering` and `Workspace.leaving` are Bland's choice, and `Workspace.run` is `Tableau.run`.
* `Workspace.expel` is `Tableau.expel`.

All of it holds for every number system, whatever its operations return.
-/

namespace IntegerProgram

variable {α : Type} {m n : Nat}

/-! ## Workspaces -/

/-- A tableau in place: the objective row is the last row of the table, the right-hand sides are its last
column. -/
structure Workspace (α : Type) where
  rows : Nat
  cols : Nat
  grid : Grid α
  basis : Array Nat

namespace Workspace

variable [Scalar α]

/-- Subtracts a multiple of one row from another. -/
def subtract (w : Workspace α) (target : Nat) (factor : α) (source : Nat) (grid : Grid α) :
    Except Fault (Grid α) :=
  grid.sweep (w.cols + 1) target fun grid j => do
    let v ← grid.entry source j
    return (· - factor * v)

/-- Writes a cost vector into the objective row. -/
def install (w : Workspace α) (cost : Array α) : Except Fault (Grid α) := do
  let grid ← w.grid.sweep w.cols w.rows fun _ j => do
    let v ← Fault.entry cost j
    return fun _ => v
  grid.update (fun _ => 0) w.rows w.cols

/-- Takes the cost of a row's basic column out of the objective row. -/
def priceOut (w : Workspace α) (cost : Array α) (grid : Grid α) (i : Nat) : Except Fault (Grid α) := do
  let v ← Fault.entry cost (← Fault.entry w.basis i)
  if v == 0 then return grid else w.subtract w.rows v i grid

/-- Installs a cost vector and prices out the basic columns. -/
def setObjective (w : Workspace α) (cost : Array α) : Except Fault (Workspace α) := do
  if cost.size ≠ w.cols then throw (.wrongLength w.cols cost.size)
  let grid ← w.install cost
  let grid ← Fault.loop w.rows (w.priceOut cost) grid
  return { w with grid }

/-- Clears a column of a row by a row in which the column is one. -/
def eliminate (w : Workspace α) (row col : Nat) (grid : Grid α) (i : Nat) : Except Fault (Grid α) := do
  if i = row then return grid
  let factor ← grid.entry i col
  if factor == 0 then return grid
  let grid ← w.subtract i factor row grid
  grid.update (fun _ => 0) i col

/-- Divides a row by its entry in a column, which becomes exactly one. -/
def normalize (w : Workspace α) (row col : Nat) : Except Fault (Grid α) := do
  let p ← w.grid.entry row col
  let grid ← w.grid.sweep (w.cols + 1) row fun _ _ => return (· / p)
  grid.update (fun _ => 1) row col

/-- Makes a column basic in a row. -/
def pivot (w : Workspace α) (row col : Nat) : Except Fault (Workspace α) := do
  let grid ← w.normalize row col
  let grid ← Fault.loop (w.rows + 1) (w.eliminate row col) grid
  let basis ← Fault.modify (fun _ => col) w.basis row
  return { w with grid, basis }

/-- The first of the first `allowed` columns whose reduced cost is below `-tol`. -/
def entering (w : Workspace α) (allowed : Nat) (tol : α) : Except Fault (Option Nat) :=
  (List.range (min allowed w.cols)).findM? fun j => do
    return decide ((← w.grid.entry w.rows j) < -tol)

/-- One step of the scan for the leaving row. -/
def scanRow (w : Workspace α) (col : Nat) (tol : α) (best : Option (Nat × α)) (i : Nat) :
    Except Fault (Option (Nat × α)) := do
  let a ← w.grid.entry i col
  if a ≤ tol then return best
  let ratio := max (← w.grid.entry i w.cols) 0 / a
  match best with
  | none => return some (i, ratio)
  | some (r, bestRatio) =>
    let earlier := decide ((← Fault.entry w.basis i) < (← Fault.entry w.basis r))
    if decide (ratio < bestRatio - Tableau.tieWindow) ||
        (decide (ratio ≤ bestRatio + Tableau.tieWindow) && earlier) then
      return some (i, ratio)
    else return some (r, bestRatio)

/-- The row that limits a column most. -/
def leaving (w : Workspace α) (col : Nat) (tol : α) : Except Fault (Option Nat) := do
  let best ← Fault.loop w.rows (w.scanRow col tol) none
  return best.map (·.1)

/-- Pivots by Bland's choice; keeps the number of counted pivots and the journal. -/
def run (allowed : Nat) (settings : SimplexSettings α) :
    Nat → Workspace α → Nat → List (Step α) →
      Except Fault (Ending × Workspace α × Nat × List (Step α))
  | budget, w, count, journal => do
    match ← w.entering allowed settings.optimalityTol with
    | none => return (.optimal, w, count, journal)
    | some col =>
      match ← w.leaving col settings.pivotTol with
      | none => return (.unbounded, w, count, journal)
      | some row =>
        match budget with
        | 0 => return (.outOfPivots, w, count, journal)
        | budget + 1 =>
          let leaves ← Fault.entry w.basis row
          let w ← w.pivot row col
          run allowed settings budget w (count + 1) (journal ++ [.pivot count col leaves row])

/-- Makes one of the first `real` columns basic in a row in place of a later one, or notes the row in the
journal. -/
def expelRow (real : Nat) (tol : α) (state : Workspace α × List (Step α)) (row : Nat) :
    Except Fault (Workspace α × List (Step α)) := do
  let (w, journal) := state
  if (← Fault.entry w.basis row) < real then return state
  let col ← (List.range real).findM? fun j => do
    return decide (tol < Scalar.abs (← w.grid.entry row j))
  match col with
  | some col => return (← w.pivot row col, journal)
  | none => return (w, journal ++ [.redundantRow row])

/-- Expels the columns from `real` on out of the basis. -/
def expel (w : Workspace α) (real : Nat) (tol : α) (journal : List (Step α)) :
    Except Fault (Workspace α × List (Step α)) :=
  Fault.loop w.rows (expelRow real tol) (w, journal)

end Workspace

/-! ## The table of a tableau -/

/-- The entry of a row in a column; behind the last column stands the right-hand side. -/
def Row.at (row : Row α n) (j : Nat) : α :=
  if h : j < n then row.coeffs.get ⟨j, h⟩ else row.rhs

/-- The row at an index; behind the last row stands the objective row. -/
def Tableau.line (t : Tableau α m n) (i : Nat) : Row α n :=
  if h : i < m then t.rows.get ⟨i, h⟩ else t.objective

/-- The table of a tableau. -/
def Tableau.grid (t : Tableau α m n) : Grid α :=
  .tabulate (m + 1) (n + 1) fun i => (t.line i).at

/-- The tableau in place. -/
def Tableau.workspace (t : Tableau α m n) : Workspace α where
  rows := m
  cols := n
  grid := t.grid
  basis := (t.basis.map Fin.val).toArray

/-- The tableau with another objective row. -/
def Tableau.withLine (t : Tableau α m n) (objective : Row α n) : Tableau α m n :=
  { t with objective }

namespace Row

variable {row other : Row α n} {j : Nat}

@[simp] lemma at_val (row : Row α n) (j : Fin n) : row.at j.val = row.coeffs.get j :=
  dif_pos j.isLt

@[simp] lemma at_length (row : Row α n) : row.at n = row.rhs :=
  dif_neg (Nat.lt_irrefl n)

lemma toArray_coeffs (row : Row α n) : row.coeffs.toArray = upTo n row.at := by
  apply Array.ext
  · simp
  · intro k hk _
    simp [upTo, Row.at, Vectors.get_eq]

variable [Scalar α]

lemma at_sub (row : Row α n) (factor : α) (other : Row α n) (j : Nat) :
    (row.sub factor other).at j = row.at j - factor * other.at j := by
  unfold Row.at sub
  split
  · rw [Vectors.get_zipWith]
  · rfl

lemma at_normalize (row : Row α n) (col : Fin n) (hj : j < n + 1) :
    (row.normalize col).at j = if j = col.val then 1 else row.at j / row.at col.val := by
  unfold normalize
  rw [at_val]
  unfold Row.at
  split
  · rename_i h
    rw [Vectors.get_replaceAt, Vectors.get_map]
    simp only [Fin.ext_iff, eq_comm]
  · rename_i h
    rw [if_neg (by omega)]

lemma at_eliminate (row : Row α n) (col : Fin n) (lead : Row α n) (j : Nat) :
    (row.eliminate col lead).at j =
      if row.at col.val == 0 then row.at j
      else if j = col.val then 0 else row.at j - row.at col.val * lead.at j := by
  unfold eliminate
  rw [at_val]
  split
  · rfl
  · rw [← at_sub]
    unfold Row.at
    split
    · rw [Vectors.get_replaceAt]
      simp only [Fin.ext_iff, eq_comm]
    · rename_i h
      rw [if_neg (by omega)]

end Row

namespace Tableau

variable {t : Tableau α m n} {i j : Nat}

@[simp] lemma line_val (t : Tableau α m n) (i : Fin m) : t.line i.val = t.rows.get i :=
  dif_pos i.isLt

@[simp] lemma line_length (t : Tableau α m n) : t.line m = t.objective :=
  dif_neg (Nat.lt_irrefl m)

@[simp] lemma rows_workspace (t : Tableau α m n) : t.workspace.rows = m :=
  rfl

@[simp] lemma cols_workspace (t : Tableau α m n) : t.workspace.cols = n :=
  rfl

@[simp] lemma grid_workspace (t : Tableau α m n) : t.workspace.grid = t.grid :=
  rfl

lemma grid_eq {g : Nat → Nat → α} (h : ∀ i < m + 1, ∀ j < n + 1, g i j = (t.line i).at j) :
    Grid.tabulate (m + 1) (n + 1) g = t.grid :=
  Grid.tabulate_congr h

lemma entry_grid (hi : i < m + 1) (hj : j < n + 1) : t.grid.entry i j = .ok ((t.line i).at j) :=
  Grid.entry_tabulate hi hj

/-- The search for a column in place. -/
lemma findM?_line (t : Tableau α m n) {i real : Nat} (hi : i < m + 1) (hreal : real ≤ n) (holds : α → Bool) :
    (List.range real).findM? (fun j => do return holds (← t.grid.entry i j)) =
      Except.ok (((List.finRange n).find? fun j =>
        decide (j.val < real) && holds ((t.line i).coeffs.get j)).map Fin.val) := by
  rw [Fault.findM?_eq fun j => holds ((t.line i).at j), find?_range hreal]
  · simp only [Row.at_val]
  · intro j hj
    have hj : j < real := List.mem_range.1 hj
    rw [entry_grid hi (by omega)]
    rfl

lemma line_withLine (t : Tableau α m n) (objective : Row α n) (hi : i < m + 1) :
    (t.withLine objective).line i = if i = m then objective else t.line i := by
  unfold line withLine
  split
  · rw [if_neg (by omega)]
  · rw [if_pos (by omega)]

lemma basis_workspace (t : Tableau α m n) (i : Fin m) :
    Fault.entry t.workspace.basis i.val = .ok (t.basis.get i).val := by
  unfold workspace
  rw [Fault.entry_toArray, Vectors.get_map]

variable [Scalar α]

lemma line_pivot (t : Tableau α m n) (row : Fin m) (col : Fin n) (i : Nat) :
    (t.pivot row col).line i = if i = row.val then (t.rows.get row).normalize col
      else (t.line i).eliminate col ((t.rows.get row).normalize col) := by
  unfold line pivot
  split
  · rw [Vectors.get_replaceAt, Vectors.get_map]
    simp only [Fin.ext_iff, eq_comm]
  · rw [if_neg (by omega)]

/-! ## What the operations come to -/

lemma subtract_tabulate {r : Nat} {g : Nat → Nat → α} {w : Workspace α} {target source : Nat} {factor : α}
    (hcols : w.cols = n) (htarget : target < r) (hsource : source < r) (hne : source ≠ target) :
    w.subtract target factor source (.tabulate r (n + 1) g) =
      .ok (.tabulate r (n + 1) fun x y => if x = target then g x y - factor * g source y else g x y) := by
  unfold Workspace.subtract
  rw [hcols, Grid.sweep_tabulate (f := fun j => (· - factor * g source j)) htarget le_rfl]
  · congr 1
    apply Grid.tabulate_congr
    intro x _ y hy
    simp [hy]
  · intro g' hg' j hj
    rw [Grid.entry_tabulate hsource hj, hg' source hne]
    rfl

lemma install_workspace (t : Tableau α m n) (cost : Vector α n) :
    t.workspace.install cost.toArray = .ok (t.withLine ⟨cost, 0⟩).grid := by
  have hcosts : ∀ j < n, (do
      let v ← Fault.entry cost.toArray j
      return fun _ => v : Except Fault (α → α)) = .ok fun _ => (⟨cost, 0⟩ : Row α n).at j := by
    intro j hj
    rw [Fault.entry_toArray cost ⟨j, hj⟩, ← Row.at_val ⟨cost, 0⟩ ⟨j, hj⟩]
    rfl
  unfold Workspace.install
  rw [grid_workspace, grid, rows_workspace, cols_workspace,
    Grid.sweep_tabulate m.lt_succ_self n.le_succ fun _ _ => hcosts,
    Fault.ok_bind, Grid.update_tabulate m.lt_succ_self n.lt_succ_self]
  congr 1
  apply grid_eq
  intro x hx y hy
  rw [line_withLine t _ hx]
  rcases Nat.lt_succ_iff_lt_or_eq.1 hy with hy | rfl
  · by_cases hxm : x = m <;> simp [hxm, hy, hy.ne]
  · by_cases hxm : x = m <;> simp [hxm]

lemma priceOut_workspace (t : Tableau α m n) (cost : Vector α n) (objective : Row α n) (i : Fin m) :
    t.workspace.priceOut cost.toArray (t.withLine objective).grid i =
      .ok (t.withLine (t.priceOut cost objective i)).grid := by
  unfold Workspace.priceOut
  rw [basis_workspace, Fault.ok_bind, Fault.entry_toArray, Fault.ok_bind]
  unfold priceOut
  split
  · rfl
  · rw [grid, rows_workspace, subtract_tabulate (cols_workspace t) m.lt_succ_self (by omega) i.isLt.ne]
    congr 1
    apply grid_eq
    intro x hx y _
    rw [line_withLine t _ hx, line_withLine t _ hx, line_withLine t _ (by omega), if_neg i.isLt.ne, line_val]
    split
    · rw [Row.at_sub]
    · rfl

lemma setObjective_workspace (t : Tableau α m n) (cost : Vector α n) :
    t.workspace.setObjective cost.toArray = .ok (t.withObjective cost).workspace := by
  have hloop := Fault.loop_eq_foldl (fun objective => (t.withLine objective).grid)
    (priceOut_workspace t cost) ⟨cost, 0⟩
  unfold Workspace.setObjective
  rw [if_neg (by simp), install_workspace]
  simp only [Fault.ok_bind, rows_workspace, hloop]
  rfl

/-- The rows in the middle of an elimination: those before `k` are done. -/
def swept (t : Tableau α m n) (row : Fin m) (col : Fin n) (k x : Nat) : Row α n :=
  if x = row.val then (t.rows.get row).normalize col
  else if x < k then (t.line x).eliminate col ((t.rows.get row).normalize col)
  else t.line x

lemma normalize_workspace (t : Tableau α m n) (row : Fin m) (col : Fin n) :
    t.workspace.normalize row col = .ok (.tabulate (m + 1) (n + 1) fun x => (t.swept row col 0 x).at) := by
  unfold Workspace.normalize
  rw [grid_workspace, entry_grid (by omega) (by omega), Fault.ok_bind, grid, cols_workspace,
    Grid.sweep_tabulate (f := fun _ v => v / (t.line row).at col) (by omega) le_rfl fun _ _ _ _ => rfl,
    Fault.ok_bind, Grid.update_tabulate (by omega) (by omega)]
  congr 1
  apply Grid.tabulate_congr
  intro x _ y hy
  unfold swept
  by_cases hrow : x = row.val
  · subst hrow
    simp [Row.at_normalize _ _ hy, hy]
  · simp [hrow]

lemma eliminate_workspace (t : Tableau α m n) (row : Fin m) (col : Fin n) {k : Nat} (hk : k < m + 1) :
    t.workspace.eliminate row col (.tabulate (m + 1) (n + 1) fun x => (t.swept row col k x).at) k =
      .ok (.tabulate (m + 1) (n + 1) fun x => (t.swept row col (k + 1) x).at) := by
  unfold Workspace.eliminate
  by_cases hrow : k = row.val
  · rw [if_pos hrow]
    show Except.ok _ = _
    congr 1
    apply Grid.tabulate_congr
    intro x _ y _
    grind [swept]
  · rw [if_neg hrow, Grid.entry_tabulate hk (by omega), Fault.ok_bind,
      subtract_tabulate (cols_workspace t) hk (by omega) (Ne.symm hrow), Fault.ok_bind,
      Grid.update_tabulate hk (by omega)]
    have hlead : t.swept row col k row = (t.rows.get row).normalize col := if_pos rfl
    have hline : t.swept row col k k = t.line k := by
      rw [swept, if_neg hrow, if_neg k.lt_irrefl]
    rw [hlead, hline]
    -- a line with a zero in the pivot column is skipped, and the elimination leaves it alone as well
    split
    · rename_i hzero
      show Except.ok _ = _
      congr 1
      apply Grid.tabulate_congr
      intro x _ y _
      by_cases hx : x = k
      · subst hx
        rw [hline, swept, if_neg hrow, if_pos x.lt_succ_self, Row.at_eliminate, if_pos hzero]
      · grind [swept]
    · rename_i hzero
      congr 1
      apply Grid.tabulate_congr
      intro x _ y _
      by_cases hx : x = k
      · subst hx
        rw [hline, swept, if_neg hrow, if_pos x.lt_succ_self, Row.at_eliminate, if_neg hzero]
        simp
      · grind [swept]

lemma pivot_workspace (t : Tableau α m n) (row : Fin m) (col : Fin n) :
    t.workspace.pivot row col = .ok (t.pivot row col).workspace := by
  have hloop := Fault.loop_eq (fun k => Grid.tabulate (m + 1) (n + 1) fun x => (t.swept row col k x).at)
    fun k hk => eliminate_workspace t row col hk
  have hgrid : Grid.tabulate (m + 1) (n + 1) (fun x => (t.swept row col (m + 1) x).at) =
      (t.pivot row col).grid := by
    apply grid_eq
    intro x hx y _
    rw [line_pivot, swept, if_pos hx]
  have hbasis : Fault.modify (fun _ => col.val) t.workspace.basis row.val =
      .ok (t.pivot row col).workspace.basis := by
    unfold workspace
    rw [Fault.modify_toArray]
    congr 2
    apply Vectors.ext_get
    intro i
    simp only [pivot, Vectors.get_replaceAt, Vectors.get_map]
    split <;> rfl
  unfold Workspace.pivot
  rw [normalize_workspace, Fault.ok_bind, rows_workspace, hloop, Fault.ok_bind, hbasis, hgrid]
  rfl

lemma entering_workspace (t : Tableau α m n) (allowed : Nat) (tol : α) :
    t.workspace.entering allowed tol = .ok ((t.entering allowed tol).map Fin.val) := by
  refine (findM?_line t m.lt_succ_self (min_le_right allowed n) fun v => decide (v < -tol)).trans ?_
  congr 2
  unfold entering
  congr 1
  funext j
  congr 1
  · exact decide_eq_decide.2 (by omega)
  · rw [line_length]
    rfl

/-- The best row of a scan as plain numbers. -/
def plainRow (best : Option (Fin m × α)) : Option (Nat × α) :=
  best.map fun (r, ratio) => (r.val, ratio)

lemma scanRow_workspace (t : Tableau α m n) (col : Fin n) (tol : α) (best : Option (Fin m × α)) (i : Fin m) :
    t.workspace.scanRow col tol (plainRow best) i = .ok (plainRow (t.scanRow col tol best i)) := by
  unfold Workspace.scanRow scanRow
  rw [grid_workspace, cols_workspace, entry_grid (by omega) (by omega), entry_grid (by omega) n.lt_succ_self,
    line_val, Row.at_val, Row.at_length, Fault.ok_bind, Fault.ok_bind]
  by_cases hsmall : t.entry i col ≤ tol
  · rw [if_pos hsmall]
    exact if_pos hsmall
  · rw [if_neg hsmall]
    refine (if_neg hsmall).trans ?_
    cases best with
    | none => rfl
    | some best =>
      obtain ⟨r, bestRatio⟩ := best
      simp only [plainRow, Option.map_some, basis_workspace, Fault.ok_bind]
      by_cases hbeats : t.beats i (t.ratio col i) r bestRatio = true
      · rw [if_pos hbeats]
        exact if_pos hbeats
      · rw [if_neg hbeats]
        exact if_neg hbeats

lemma leaving_workspace (t : Tableau α m n) (col : Fin n) (tol : α) :
    t.workspace.leaving col tol = .ok ((t.leaving col tol).map Fin.val) := by
  have hloop := Fault.loop_eq_foldl plainRow (scanRow_workspace t col tol) none
  unfold Workspace.leaving leaving
  rw [rows_workspace, show (none : Option (Nat × α)) = plainRow (none : Option (Fin m × α)) from rfl, hloop]
  show Except.ok _ = _
  rw [plainRow, Option.map_map, Option.map_map]
  rfl

/-- How Bland's rule came to its choice. -/
lemma choose_inv {t : Tableau α m n} {allowed : Nat} {settings : SimplexSettings α} {choice : Choice m n}
    (h : t.choose allowed settings = choice) :
    match choice with
    | .optimal => t.entering allowed settings.optimalityTol = none
    | .unbounded => ∃ col, t.entering allowed settings.optimalityTol = some col ∧
        t.leaving col settings.pivotTol = none
    | .pivot p => t.entering allowed settings.optimalityTol = some p.enters ∧
        t.leaving p.enters settings.pivotTol = some p.row ∧ t.basis.get p.row = p.leaves := by
  unfold choose at h
  split at h
  · rename_i hcol
    subst h
    exact hcol
  · rename_i col hcol
    split at h
    · rename_i hrow
      subst h
      exact ⟨col, hcol, hrow⟩
    · rename_i row hrow
      subst h
      exact ⟨hcol, hrow, rfl⟩

lemma runFrom_workspace (allowed : Nat) (settings : SimplexSettings α) (budget : Nat) (t : Tableau α m n)
    (done : List (Pivot m n)) (start : Nat) (journal : List (Step α)) :
    Workspace.run allowed settings budget t.workspace (start + done.length)
        (journal ++ Step.ofPivots start done.reverse) =
      .ok ((runFrom allowed settings budget t done).ending,
        (runFrom allowed settings budget t done).tableau.workspace,
        start + (runFrom allowed settings budget t done).pivots.length,
        journal ++ Step.ofPivots start (runFrom allowed settings budget t done).pivots) := by
  -- the loop on arrays makes the choices of the run, and writes each pivot down when it is made
  fun_induction runFrom allowed settings budget t done with
  | case1 budget t done hchoice =>
    have hnone := choose_inv hchoice
    rw [Workspace.run.eq_def]
    simp only [entering_workspace, hnone, Fault.ok_bind, Option.map_none, List.length_reverse]
    rfl
  | case2 budget t done hchoice =>
    obtain ⟨col, hcol, hrow⟩ := choose_inv hchoice
    rw [Workspace.run.eq_def]
    simp only [entering_workspace, hcol, leaving_workspace, hrow, Fault.ok_bind, Option.map_none,
      Option.map_some, List.length_reverse]
    rfl
  | case3 t done p hchoice =>
    obtain ⟨hcol, hrow, -⟩ := choose_inv hchoice
    rw [Workspace.run.eq_def]
    simp only [entering_workspace, hcol, leaving_workspace, hrow, Fault.ok_bind, Option.map_some,
      List.length_reverse]
    rfl
  | case4 t done p budget hchoice ih =>
    obtain ⟨hcol, hrow, hleaves⟩ := choose_inv hchoice
    have hjournal : journal ++ Step.ofPivots start (p :: done).reverse =
        journal ++ Step.ofPivots start done.reverse ++
          [.pivot (start + done.length) p.enters p.leaves p.row] := by
      simp [Step.ofPivots, List.zipIdx_append]
    rw [Workspace.run.eq_def]
    simp only [entering_workspace, hcol, leaving_workspace, hrow, Fault.ok_bind, Option.map_some,
      basis_workspace, hleaves, pivot_workspace]
    rw [← hjournal]
    exact ih

lemma run_workspace (t : Tableau α m n) (allowed : Nat) (settings : SimplexSettings α) (budget start : Nat)
    (journal : List (Step α)) :
    Workspace.run allowed settings budget t.workspace start journal =
      .ok ((t.run allowed settings budget).ending, (t.run allowed settings budget).tableau.workspace,
        start + (t.run allowed settings budget).pivots.length,
        journal ++ Step.ofPivots start (t.run allowed settings budget).pivots) := by
  have hrun := runFrom_workspace allowed settings budget t [] start journal
  rwa [List.length_nil, Nat.add_zero, List.reverse_nil, show Step.ofPivots start ([] : List (Pivot m n)) =
    ([] : List (Step α)) from rfl, List.append_nil] at hrun

lemma expelRow_workspace {real : Nat} (hreal : real ≤ n) (tol : α) (journal : List (Step α))
    (state : Tableau α m n × List (Fin m)) (row : Fin m) :
    Workspace.expelRow real tol
        (state.1.workspace, journal ++ state.2.map fun r => .redundantRow r.val) row =
      .ok ((expelRow real tol state row).1.workspace,
        journal ++ (expelRow real tol state row).2.map fun r => .redundantRow r.val) := by
  obtain ⟨t, redundant⟩ := state
  have hsearch : (List.range real).findM? (fun j => do
      return decide (tol < Scalar.abs (← t.grid.entry row j))) =
      Except.ok (((List.finRange n).find? fun j =>
        decide (j.val < real) && decide (tol < Scalar.abs (t.entry row j))).map Fin.val) := by
    have hline := findM?_line t (show row.val < m + 1 by omega) hreal fun v => decide (tol < Scalar.abs v)
    rw [line_val] at hline
    exact hline
  simp only [Workspace.expelRow, basis_workspace, grid_workspace, Fault.ok_bind, hsearch, expelRow]
  split
  · rfl
  · cases (List.finRange n).find? _ with
    | none =>
      rw [List.map_append, ← List.append_assoc]
      rfl
    | some col =>
      simp only [Option.map_some, pivot_workspace, Fault.ok_bind]
      rfl

lemma expel_workspace {real : Nat} (hreal : real ≤ n) (tol : α) (t : Tableau α m n)
    (journal : List (Step α)) :
    t.workspace.expel real tol journal =
      .ok ((t.expel real tol).1.workspace,
        journal ++ (t.expel real tol).2.map fun r => .redundantRow r.val) := by
  have hloop := Fault.loop_eq_foldl
    (fun state : Tableau α m n × List (Fin m) =>
      (state.1.workspace, journal ++ state.2.map fun r => .redundantRow r.val))
    (expelRow_workspace hreal tol journal) (t, [])
  rw [List.map_nil, List.append_nil] at hloop
  exact hloop

end Tableau

end IntegerProgram
