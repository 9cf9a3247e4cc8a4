import Mathlib
import IntegerProgram.LinearProgram.StandardForm
import IntegerProgram.Proofs.Box
import IntegerProgram.Proofs.Matrix
import IntegerProgram.Proofs.Tableau.Bland

/-!
# Points of a linear program as points of its standard form

A feasible point of a linear program, measured from the lower bounds and completed by its slacks,
satisfies the standard form with all artificial columns at zero, and every such point comes from a
feasible one:

* `LinearProgram.gap_equationRow`, `LinearProgram.gap_capRow`: the rows of the standard form, written out.
* `LinearProgram.IsFeasible.lift_satisfies` and `LinearProgram.isFeasible_unlift`: the two directions.
* `LinearProgram.isCanonical_standardForm`, `LinearProgram.isFeasible_standardForm`: the tableau in
  which the first phase starts.
* `LinearProgram.point_eq_unlift`: the point that is read off a tableau is its basic solution.
-/

namespace IntegerProgram.LinearProgram

variable {m n : Nat}

/-- A point solves the equations and lies between the bounds. -/
structure IsFeasible (p : LinearProgram Rat m n) (x : Vector Rat n) : Prop where
  solves : p.matrix.Solves x p.rhs
  within : ∀ j, (p.bounds.get j).Holds (x.get j)

/-! ## Columns -/

section Layout

variable {α : Type} [Scalar α] (p : LinearProgram α m n) (structural : Fin n → α)
  (slacks : Fin p.caps.length → α) (artificials : Fin m → α)

@[simp] lemma columnVector_variable (j : Fin n) :
    (p.columnVector structural slacks artificials).get (p.variableColumn j) = structural j := by
  simp [columnVector, variableColumn]

@[simp] lemma columnVector_slack (s : Fin p.caps.length) :
    (p.columnVector structural slacks artificials).get (p.slackColumn s) = slacks s := by
  simp [columnVector, slackColumn]

@[simp] lemma columnVector_artificial (i : Fin m) :
    (p.columnVector structural slacks artificials).get (p.artificialColumn i) = artificials i := by
  simp [columnVector, artificialColumn]

/-- A column is that of a variable, of a slack, or artificial. -/
lemma column_cases {motive : Fin p.columnCount → Prop} (hvar : ∀ j, motive (p.variableColumn j))
    (hslack : ∀ s, motive (p.slackColumn s)) (hart : ∀ i, motive (p.artificialColumn i))
    (c : Fin p.columnCount) : motive c := by
  induction c using Fin.addCases with
  | left c =>
    induction c using Fin.addCases with
    | left j => exact hvar j
    | right s => exact hslack s
  | right i => exact hart i

@[simp] lemma val_variableColumn (j : Fin n) : (p.variableColumn j).val = j.val :=
  rfl

@[simp] lemma val_slackColumn (s : Fin p.caps.length) : (p.slackColumn s).val = n + s.val :=
  rfl

@[simp] lemma val_artificialColumn (i : Fin m) : (p.artificialColumn i).val = n + p.caps.length + i.val :=
  rfl

lemma get_infeasibilityCost (c : Fin p.columnCount) :
    p.infeasibilityCost.get c = if c.val < n + p.caps.length then 0 else 1 := by
  unfold infeasibilityCost
  induction c using p.column_cases with
  | hvar j => rw [columnVector_variable, val_variableColumn, if_pos (by omega)]
  | hslack s => rw [columnVector_slack, val_slackColumn, if_pos (by omega)]
  | hart i => rw [columnVector_artificial, val_artificialColumn, if_neg (by omega)]

lemma get_realCost (c : Fin p.columnCount) :
    p.realCost.get c = if h : c.val < n then p.cost.get ⟨c, h⟩ else 0 := by
  unfold realCost
  induction c using p.column_cases with
  | hvar j =>
    rw [columnVector_variable, dif_pos (show (p.variableColumn j).val < n from j.isLt)]
    rfl
  | hslack s => rw [columnVector_slack, val_slackColumn, dif_neg (by omega)]
  | hart i => rw [columnVector_artificial, val_artificialColumn, dif_neg (by omega)]

/-- A row is that of an equation or of an upper bound. -/
lemma row_cases {motive : Fin p.rowCount → Prop} (heq : ∀ i : Fin m, motive (i.castAdd _))
    (hcap : ∀ s : Fin p.caps.length, motive (s.natAdd m)) (k : Fin p.rowCount) : motive k := by
  induction k using Fin.addCases with
  | left i => exact heq i
  | right s => exact hcap s

/-! ## Rows -/

variable {p}

@[simp] lemma rows_equation (i : Fin m) :
    p.standardForm.rows.get (i.castAdd _) = p.equationRow p.shiftedRhs i := by
  simp [standardForm]

@[simp] lemma rows_cap (s : Fin p.caps.length) :
    p.standardForm.rows.get (s.natAdd m) = p.capRow s := by
  simp [standardForm]

@[simp] lemma basis_equation (i : Fin m) :
    p.standardForm.basis.get (i.castAdd _) = p.artificialColumn i := by
  simp [standardForm]

@[simp] lemma basis_cap (s : Fin p.caps.length) :
    p.standardForm.basis.get (s.natAdd m) = p.slackColumn s := by
  simp [standardForm]

end Layout

variable {p : LinearProgram Rat m n}

/-- A sum over the columns, kind by kind. -/
lemma sum_columns (p : LinearProgram Rat m n) (f : Fin p.columnCount → Rat) :
    ∑ c, f c = ∑ j, f (p.variableColumn j) + ∑ s, f (p.slackColumn s)
      + ∑ i, f (p.artificialColumn i) := by
  rw [Fin.sum_univ_add, Fin.sum_univ_add]
  rfl

lemma realCount_le_artificialColumn (i : Fin m) : p.realCount ≤ (p.artificialColumn i).val := by
  show p.realCount ≤ p.realCount + i.val
  omega

/-- The columns beyond the real ones are artificial. -/
lemma exists_artificialColumn {c : Fin p.columnCount} (h : p.realCount ≤ c.val) :
    ∃ i, c = p.artificialColumn i := by
  induction c using p.column_cases with
  | hvar j =>
    have hlt : j.val < n + p.caps.length := by omega
    exact absurd h (not_le.2 hlt)
  | hslack s =>
    have hlt : n + s.val < n + p.caps.length := by omega
    exact absurd h (not_le.2 hlt)
  | hart i => exact ⟨i, rfl⟩

@[simp] lemma get_lower (j : Fin n) : p.lower.get j = (p.bounds.get j).lower := by
  simp [lower]

/-- The shifted right-hand side is what the lower bounds leave of the equations. -/
lemma get_shiftedRhs (i : Fin m) :
    p.shiftedRhs.get i = p.rhs.get i - ∑ j, p.matrix.entry i j * (p.bounds.get j).lower := by
  rw [shiftedRhs, SparseMatrix.get_mulAdd]
  simp only [get_lower]
  ring

/-- The variables with an upper bound, each with the width of its interval. -/
lemma mem_caps {cap : Fin n × Rat} : cap ∈ p.caps ↔
    ∃ u ∈ (p.bounds.get cap.1).upper, cap.2 = u - (p.bounds.get cap.1).lower := by
  unfold caps
  simp only [List.mem_filterMap, List.mem_finRange, true_and, Option.map_eq_some_iff]
  constructor
  · rintro ⟨j, u, hu, rfl⟩
    exact ⟨u, hu, rfl⟩
  · rintro ⟨u, hu, e⟩
    exact ⟨cap.1, u, hu, Prod.ext rfl e.symm⟩

/-- A right-hand side times its sign is its distance from zero. -/
lemma mul_signOf (v : Rat) : v * signOf v = |v| := by
  unfold signOf
  split
  · rename_i hneg
    rw [abs_of_neg hneg, mul_neg_one]
  · rename_i hnonneg
    rw [abs_of_nonneg (not_lt.1 hnonneg), mul_one]

/-- A sign is not zero. -/
lemma signOf_ne_zero (v : Rat) : signOf v ≠ 0 := by
  unfold signOf
  split
  · norm_num
  · norm_num

/-- By how much a point misses the row of an equation. -/
lemma gap_equationRow (rhs : Vector Rat m) (i : Fin m) (w : Fin p.columnCount → Rat) :
    (p.equationRow rhs i).gap w
      = signOf (rhs.get i) * (∑ j, p.matrix.entry i j * w (p.variableColumn j) - rhs.get i)
        + w (p.artificialColumn i) := by
  unfold Row.gap
  rw [sum_columns]
  simp only [equationRow, columnVector_variable, columnVector_slack, columnVector_artificial,
    zero_mul, Finset.sum_const_zero, ite_mul, one_mul, Finset.sum_ite_eq', Finset.mem_univ, if_true,
    mul_assoc, ← Finset.mul_sum]
  ring

/-- By how much a point misses the row of an upper bound. -/
lemma gap_capRow (s : Fin p.caps.length) (w : Fin p.columnCount → Rat) :
    (p.capRow s).gap w
      = w (p.variableColumn (p.caps.get s).1) + w (p.slackColumn s) - (p.caps.get s).2 := by
  unfold Row.gap
  rw [sum_columns]
  simp only [capRow, columnVector_variable, columnVector_slack, columnVector_artificial, zero_mul,
    Finset.sum_const_zero, ite_mul, one_mul, Finset.sum_ite_eq', Finset.mem_univ, if_true, add_zero]

/-- The artificial and slack columns are the unit columns of the standard form. -/
lemma isCanonical_standardForm : p.standardForm.IsCanonical := by
  intro i k
  unfold Tableau.entry
  induction i using p.row_cases with
  | heq i =>
    induction k using p.row_cases with
    | heq k =>
      simp only [rows_equation, basis_equation, equationRow, columnVector_artificial,
        Fin.castAdd_inj]
      exact if_congr eq_comm rfl rfl
    | hcap k =>
      have hne : k.natAdd m ≠ i.castAdd p.caps.length := (Vectors.castAdd_ne_natAdd i k).symm
      simp only [rows_cap, basis_equation, capRow, columnVector_artificial, if_neg hne]
  | hcap s =>
    induction k using p.row_cases with
    | heq k =>
      have hne : k.castAdd p.caps.length ≠ s.natAdd m := Vectors.castAdd_ne_natAdd k s
      simp only [rows_equation, basis_cap, equationRow, columnVector_slack, if_neg hne]
    | hcap k =>
      simp only [rows_cap, basis_cap, capRow, columnVector_slack, Fin.natAdd_inj]
      exact if_congr eq_comm rfl rfl

/-- Without an empty interval no right-hand side of the standard form is negative. -/
lemma isFeasible_standardForm (h : ∀ j, (p.bounds.get j).isEmpty = false) :
    p.standardForm.IsFeasible := by
  intro k
  unfold Tableau.rhs
  induction k using p.row_cases with
  | heq i =>
    rw [rows_equation]
    exact (abs_nonneg _).trans_eq (mul_signOf _).symm
  | hcap s =>
    rw [rows_cap]
    obtain ⟨u, hu, e⟩ := mem_caps.1 (List.get_mem p.caps s)
    have hempty := h (p.caps.get s).1
    unfold Interval.isEmpty at hempty
    rw [Option.mem_def] at hu
    rw [hu] at hempty
    have hle : ¬ u < (p.bounds.get (p.caps.get s).1).lower := by
      simpa using hempty
    show 0 ≤ (p.caps.get s).2
    rw [e]
    linarith

/-! ## Points -/

/-- The point of the standard form that belongs to a point of the program: distances from the lower
bounds, slacks, and no artificials. -/
def lift (p : LinearProgram Rat m n) (x : Vector Rat n) : Fin p.columnCount → Rat :=
  (p.columnVector (fun j => x.get j - (p.bounds.get j).lower)
    (fun s => (p.caps.get s).2
      - (x.get (p.caps.get s).1 - (p.bounds.get (p.caps.get s).1).lower))
    (fun _ => 0)).get

/-- The point of the program that belongs to a point of the standard form. -/
def unlift (p : LinearProgram Rat m n) (w : Fin p.columnCount → Rat) : Vector Rat n :=
  Vector.ofFn fun j => (p.bounds.get j).lower + w (p.variableColumn j)

/-- A feasible point satisfies the rows of the standard form. -/
lemma IsFeasible.lift_satisfies {x : Vector Rat n} (h : p.IsFeasible x) :
    p.standardForm.Satisfies (p.lift x) := by
  intro k
  induction k using p.row_cases with
  | heq i =>
    rw [rows_equation, gap_equationRow, get_shiftedRhs]
    simp only [lift, columnVector_variable, columnVector_artificial, mul_sub, Finset.sum_sub_distrib]
    rw [h.solves i]
    ring
  | hcap s =>
    rw [rows_cap, gap_capRow]
    simp only [lift, columnVector_variable, columnVector_slack]
    ring

/-- A feasible point has distances and slacks that are not negative. -/
lemma IsFeasible.lift_nonneg {x : Vector Rat n} (h : p.IsFeasible x) (c : Fin p.columnCount) :
    0 ≤ p.lift x c := by
  induction c using p.column_cases with
  | hvar j =>
    simp only [lift, columnVector_variable]
    have := (h.within j).1
    linarith
  | hslack s =>
    simp only [lift, columnVector_slack]
    obtain ⟨u, hu, e⟩ := mem_caps.1 (List.get_mem p.caps s)
    have := (h.within (p.caps.get s).1).2 u hu
    have e' : (p.caps.get s).2 = u - (p.bounds.get (p.caps.get s).1).lower := e
    rw [e']
    linarith
  | hart i =>
    simp only [lift, columnVector_artificial]
    exact le_refl 0

/-- A point of the standard form without negative values and without artificials is a feasible one. -/
lemma isFeasible_unlift {w : Fin p.columnCount → Rat} (hw : p.standardForm.Satisfies w)
    (h0 : ∀ c, 0 ≤ w c) (hart : ∀ i, w (p.artificialColumn i) = 0) : p.IsFeasible (p.unlift w) where
  solves := by
    intro i
    have hi := hw (i.castAdd _)
    rw [rows_equation, gap_equationRow, hart, add_zero, mul_eq_zero, get_shiftedRhs] at hi
    have hi := hi.resolve_left (signOf_ne_zero _)
    simp only [unlift, Vectors.get_ofFn, mul_add, Finset.sum_add_distrib]
    linarith
  within := by
    intro j
    simp only [unlift, Vectors.get_ofFn]
    constructor
    · have := h0 (p.variableColumn j)
      linarith
    · intro u hu
      obtain ⟨s, hs⟩ := List.mem_iff_get.1 (mem_caps.2 ⟨u, hu, rfl⟩ :
        (j, u - (p.bounds.get j).lower) ∈ p.caps)
      have hrow := hw (s.natAdd m)
      rw [rows_cap, gap_capRow, hs] at hrow
      have hslack := h0 (p.slackColumn s)
      simp only at hrow
      linarith

/-! ## Costs -/

/-- The cost of the first phase is the sum of the artificials. -/
lemma sum_infeasibilityCost (w : Fin p.columnCount → Rat) :
    ∑ c, p.infeasibilityCost.get c * w c = ∑ i, w (p.artificialColumn i) := by
  rw [sum_columns]
  simp only [infeasibilityCost, columnVector_variable, columnVector_slack, columnVector_artificial,
    zero_mul, Finset.sum_const_zero, one_mul, zero_add]

/-- The cost of the second phase is the cost of the variables. -/
lemma sum_realCost (w : Fin p.columnCount → Rat) :
    ∑ c, p.realCost.get c * w c = ∑ j, p.cost.get j * w (p.variableColumn j) := by
  rw [sum_columns]
  simp only [realCost, columnVector_variable, columnVector_slack, columnVector_artificial, zero_mul,
    Finset.sum_const_zero, add_zero]

/-- The cost of a point, from the cost of its distances. -/
lemma inner_unlift (w : Fin p.columnCount → Rat) :
    Vectors.inner p.cost (p.unlift w)
      = Vectors.inner p.cost p.lower + ∑ c, p.realCost.get c * w c := by
  rw [sum_realCost]
  simp only [Vectors.inner, unlift, Vectors.get_ofFn, get_lower, mul_add, Finset.sum_add_distrib]

/-- The cost of the distances of a point. -/
lemma sum_realCost_lift (x : Vector Rat n) :
    ∑ c, p.realCost.get c * p.lift x c
      = Vectors.inner p.cost x - Vectors.inner p.cost p.lower := by
  rw [sum_realCost]
  simp only [lift, columnVector_variable, Vectors.inner, get_lower, mul_sub, Finset.sum_sub_distrib]

/-! ## The point that is read off -/

/-- Reading rows adds to each variable the right-hand sides of the rows in which it is basic. -/
lemma get_foldl_readRow (t : Tableau Rat p.rowCount p.columnCount) (rows : List (Fin p.rowCount))
    (x : Vector Rat n) (j : Fin n) : (rows.foldl (p.readRow t) x).get j
      = x.get j + (rows.map fun i =>
          if t.basis.get i = p.variableColumn j then max (t.rhs i) 0 else 0).sum := by
  induction rows generalizing x with
  | nil => simp
  | cons i rest ih =>
    have hval : t.basis.get i = p.variableColumn j ↔ (t.basis.get i).val = j.val := Fin.ext_iff
    rw [List.foldl_cons, ih, List.map_cons, List.sum_cons, ← add_assoc]
    congr 1
    unfold readRow
    split
    · rename_i hlt
      rw [Vectors.get_replaceAt]
      by_cases e : (t.basis.get i).val = j.val
      · have e' : (⟨(t.basis.get i).val, hlt⟩ : Fin n) = j := Fin.ext e
        rw [if_pos e', if_pos (hval.2 e), e']
      · have e' : (⟨(t.basis.get i).val, hlt⟩ : Fin n) ≠ j := fun h => e (Fin.ext_iff.1 h)
        rw [if_neg e', if_neg fun h => e (hval.1 h), add_zero]
    · rename_i hge
      have e : (t.basis.get i).val ≠ j.val := by
        have := j.isLt
        omega
      rw [if_neg fun h => e (hval.1 h), add_zero]

/-- The point of a tableau is its basic solution if no variable is basic at a negative value; slacks and
artificials do not matter. -/
lemma point_eq_unlift_of_nonneg {t : Tableau Rat p.rowCount p.columnCount}
    (h : ∀ i, (t.basis.get i).val < n → 0 ≤ t.rhs i) : p.point t = p.unlift (t.spread t.rhs) := by
  apply Vectors.ext_get
  intro j
  rw [point, get_foldl_readRow, get_lower, ← List.ofFn_eq_map, List.sum_ofFn, unlift,
    Vectors.get_ofFn]
  congr 1
  apply Finset.sum_congr rfl
  intro i _
  by_cases hbasic : t.basis.get i = p.variableColumn j
  · rw [if_pos hbasic, if_pos hbasic, max_eq_left]
    apply h
    rw [hbasic]
    exact j.isLt
  · rw [if_neg hbasic, if_neg hbasic]

/-- The point of a feasible tableau is its basic solution. -/
lemma point_eq_unlift {t : Tableau Rat p.rowCount p.columnCount} (h : t.IsFeasible) :
    p.point t = p.unlift (t.spread t.rhs) :=
  point_eq_unlift_of_nonneg fun i _ => h i

end IntegerProgram.LinearProgram
