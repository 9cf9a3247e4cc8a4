import Mathlib
import IntegerProgram.Proofs.LinearProgram.Certificates

/-!
# When the sum of artificials seems to fall without end

The sum of the artificials is never negative, so no column lets it fall without end. The first phase looks at
tolerances, though: a column enters by its reduced cost, which adds up the entries of all rows with a basic
artificial, and a row leaves by its own entry. Over exact scalars:

* `LinearProgram.IsStageOne.neg_mul_le_reduced`: a column whose entries are all within the tolerance for pivots
  has a reduced cost of at most that tolerance for each basic artificial.
* `LinearProblem.faint` is a problem where many small entries make up a reduced cost and none of them is a
  pivot element.
* `LinearProblem.infeasibilityUnbounded_iff`: the tolerances go together exactly when the one for reduced costs
  covers the one for pivots once for each equation.
-/

namespace IntegerProgram

/-- Reduced costs are costs less what the column displaces. -/
lemma Tableau.Prices.reduced_eq {m n : Nat} {t : Tableau Rat m n} {cost : Vector Rat n}
    (hc : t.IsCanonical) (h : t.Prices cost) (col : Fin n) :
    t.reduced col = cost.get col - ∑ i, cost.get (t.basis.get i) * t.entry i col := by
  have hzero := h.cost_ray hc col 0
  have hone := h.cost_ray hc col 1
  rw [sum_mul_ray] at hzero hone
  simp only [mul_sub, Finset.sum_sub_distrib, zero_mul, mul_zero, one_mul, mul_one,
    Finset.sum_const_zero] at hzero hone
  linarith

namespace LinearProgram

variable {m n : Nat} {p : LinearProgram Rat m n} {settings : SimplexSettings Rat}
  {t : Tableau Rat p.rowCount p.columnCount}

/-- The number of rows in which an artificial column is basic. -/
def artificials (p : LinearProgram Rat m n) (t : Tableau Rat p.rowCount p.columnCount) : Nat :=
  (Finset.univ.filter fun i => p.realCount ≤ (t.basis.get i).val).card

/-- There is an artificial column for each equation, and none is basic in two rows. -/
lemma artificials_le (h : t.IsCanonical) : p.artificials t ≤ m := by
  calc p.artificials t ≤ (Finset.univ.image p.artificialColumn).card := by
        apply Finset.card_le_card_of_injOn t.basis.get
        · intro i hi
          obtain ⟨k, hk⟩ := exists_artificialColumn (Finset.mem_filter.1 hi).2
          rw [hk]
          exact Finset.mem_image_of_mem _ (Finset.mem_univ k)
        · intro i _ k _ e
          exact h.injective e
    _ ≤ m := Finset.card_image_le.trans_eq (Finset.card_fin m)

/-- Entries within a tolerance make up a reduced cost of at most the tolerance for each basic artificial. -/
lemma IsStageOne.neg_mul_le_reduced (h : p.IsStageOne t) {col : Fin p.columnCount} {tol : Rat}
    (hcol : ∀ i, t.entry i col ≤ tol) : -(p.artificials t * tol) ≤ t.reduced col := by
  have hcost : ∀ c, 0 ≤ p.infeasibilityCost.get c := by
    intro c
    rw [get_infeasibilityCost]
    split
    · exact le_rfl
    · exact zero_le_one
  have hsum : ∑ i, p.infeasibilityCost.get (t.basis.get i) * t.entry i col ≤ p.artificials t * tol := by
    calc ∑ i, p.infeasibilityCost.get (t.basis.get i) * t.entry i col
        ≤ ∑ i, p.infeasibilityCost.get (t.basis.get i) * tol :=
          Finset.sum_le_sum fun i _ => mul_le_mul_of_nonneg_left (hcol i) (hcost _)
      _ = p.artificials t * tol := by
          simp only [get_infeasibilityCost, ← not_le, ite_not, artificials, ← Finset.sum_mul,
            Finset.sum_boole]
  rw [h.prices.reduced_eq h.canonical]
  linarith [hcost col]

/-- The first phase seems unbounded only if the basic artificials outweigh the tolerance for reduced costs. -/
lemma lt_artificials_mul (hpivot : 0 ≤ settings.pivotTol)
    (ended : (p.phaseOne settings).ending = .unbounded) :
    settings.optimalityTol < p.artificials (p.phaseOne settings).tableau * settings.pivotTol := by
  obtain ⟨col, -, hreduced, hcol⟩ :=
    Tableau.column_of_unbounded ((p.endsRun_phaseOne settings).unbounded ended)
  have hle := (isStageOne_phaseOne hpivot).neg_mul_le_reduced hcol
  linarith

lemma phaseOne_ne_unbounded (hpivot : 0 ≤ settings.pivotTol)
    (hcover : m * settings.pivotTol ≤ settings.optimalityTol) :
    (p.phaseOne settings).ending ≠ .unbounded := by
  intro ended
  have hlt := lt_artificials_mul hpivot ended
  have hle : (p.artificials (p.phaseOne settings).tableau : Rat) ≤ m := by
    exact_mod_cast artificials_le (isStageOne_phaseOne hpivot).canonical
  have := mul_le_mul_of_nonneg_right hle hpivot
  linarith

/-- Before the first pivot a variable is priced by its entries in all equations, with the signs that make the
right-hand sides non-negative. -/
lemma reduced_start (j : Fin n) :
    (p.standardForm.withObjective p.infeasibilityCost).reduced (p.variableColumn j) =
      -∑ i, signOf (p.shiftedRhs.get i) * p.matrix.entry i j := by
  rw [Tableau.reduced_withObjective, Fin.sum_univ_add]
  simp only [Tableau.entry, rows_equation, rows_cap, basis_equation, basis_cap, infeasibilityCost,
    columnVector_variable, columnVector_slack, columnVector_artificial, equationRow, one_mul, zero_mul,
    Finset.sum_const_zero, add_zero, zero_sub]

/-- A variable without a row to leave for it at the start: all its entries are within the tolerance for pivots,
and together they exceed the one for reduced costs. -/
lemma choose_start_eq_unbounded (settings : SimplexSettings Rat) (hcaps : p.caps = [])
    (hoptimality : 0 ≤ settings.optimalityTol)
    (hsmall : ∀ i j, signOf (p.shiftedRhs.get i) * p.matrix.entry i j ≤ settings.pivotTol) {j : Fin n}
    (hlarge : settings.optimalityTol < ∑ i, signOf (p.shiftedRhs.get i) * p.matrix.entry i j) :
    (p.standardForm.withObjective p.infeasibilityCost).choose p.columnCount settings = .unbounded := by
  have hnone : ∀ s : Fin p.caps.length, False := by
    intro s
    have hlength : p.caps.length = 0 := by
      rw [hcaps]
      rfl
    exact absurd s.isLt (by omega)
  rcases Tableau.choose_cases (p.standardForm.withObjective p.infeasibilityCost) p.columnCount settings with
    ⟨-, hreduced⟩ | ⟨hchoose, -⟩ | ⟨pivot, -, hpivot⟩
  · have hle := hreduced (p.variableColumn j) (p.variableColumn j).isLt
    rw [reduced_start] at hle
    linarith
  · exact hchoose
  · -- an entering column is that of a variable, since the artificial ones are basic
    have hneg := (Tableau.entering_spec hpivot.entering).2
    have hentry := Tableau.lt_entry_of_leaving hpivot.leaving
    generalize pivot.enters = col at hneg hentry
    generalize pivot.row = row at hentry
    induction col using p.column_cases with
    | hvar k =>
      induction row using p.row_cases with
      | heq i =>
        have hequation : (p.standardForm.withObjective p.infeasibilityCost).entry (i.castAdd _)
            (p.variableColumn k) = signOf (p.shiftedRhs.get i) * p.matrix.entry i k := by
          show (p.standardForm.rows.get _).coeffs.get _ = _
          rw [rows_equation, equationRow, columnVector_variable]
        rw [hequation] at hentry
        exact absurd (hsmall i k) (not_le.2 hentry)
      | hcap s => exact (hnone s).elim
    | hslack s => exact (hnone s).elim
    | hart i =>
      have hbasic := (isStageOne_start (p := p)).prices.basic (i.castAdd _)
      have hcolumn : (p.standardForm.withObjective p.infeasibilityCost).basis.get (i.castAdd _) =
          p.artificialColumn i := basis_equation i
      rw [hcolumn] at hbasic
      linarith

end LinearProgram

namespace LinearProblem

variable {m : Nat}

/-- One variable that stands in every equation with the same coefficient. -/
def faint (m : Nat) (size : Rat) : LinearProblem Rat m 1 where
  matrix := .ofCells ((List.finRange m).map fun i => ⟨i, .last 0, size⟩)
  cost := #[1]
  rhs := Array.replicate m 0
  bounds := #[⟨0, none⟩]

lemma check_faint (m : Nat) (size : Rat) : (faint m size).check =
    .ok ⟨(faint m size).matrix, #v[1], Vector.replicate m 0, #v[⟨0, none⟩]⟩ :=
  check_eq_ok rfl Array.size_replicate rfl

lemma entry_faint (size : Rat) (i : Fin m) (j : Fin 1) : (faint m size).matrix.entry i j = size := by
  rw [faint, SparseMatrix.entry_ofCells, List.map_map, ← List.ofFn_eq_map, List.sum_ofFn]
  simp [Subsingleton.elim 0 j]

/-- The first phase is at a loss at once if the coefficient is no pivot element and the equations add up to a
reduced cost. -/
lemma phaseOne_faint {settings : SimplexSettings Rat} {program : LinearProgram Rat m 1}
    (checked : (faint m settings.pivotTol).check = .ok program)
    (hoptimality : 0 ≤ settings.optimalityTol) (h : settings.optimalityTol < m * settings.pivotTol) :
    (program.phaseOne settings).ending = .unbounded := by
  rw [check_faint] at checked
  cases checked
  have hentry := entry_faint (m := m) settings.pivotTol
  have hsign : ∀ v : Rat, v = 0 → LinearProgram.signOf v = 1 := by
    rintro _ rfl
    exact if_neg (lt_irrefl 0)
  have hrhs : ∀ i, LinearProgram.signOf (LinearProgram.shiftedRhs ⟨(faint m settings.pivotTol).matrix,
      #v[1], Vector.replicate m 0, #v[⟨0, none⟩]⟩ |>.get i) = 1 := by
    intro i
    apply hsign
    rw [LinearProgram.get_shiftedRhs]
    simp [Vectors.get_eq]
  have hchoose := LinearProgram.choose_start_eq_unbounded settings (j := 0)
    (p := ⟨(faint m settings.pivotTol).matrix, #v[1], Vector.replicate m 0, #v[⟨0, none⟩]⟩)
    rfl hoptimality
    (by
      intro i j
      rw [hrhs, hentry, one_mul])
    (by
      simp only [hrhs, hentry, one_mul, Finset.sum_const, Finset.card_fin, nsmul_eq_mul]
      exact h)
  unfold LinearProgram.phaseOne Tableau.run
  rw [Tableau.runFrom_unbounded hchoose]

/-- The tolerances go together exactly when the one for reduced costs covers the one for pivots once for each
equation: then the sum of the artificials never seems to fall without end, and otherwise there is a problem with
so many equations where it does. Wherever it does, the basic artificials outweigh the tolerance for reduced
costs. -/
theorem infeasibilityUnbounded_iff {settings : SimplexSettings Rat} (m : Nat)
    (hpivot : 0 ≤ settings.pivotTol) (hoptimality : 0 ≤ settings.optimalityTol) :
    (∀ (n : Nat) (p : LinearProblem Rat m n) (program : LinearProgram Rat m n), p.check = .ok program →
      (program.phaseOne settings).ending = .unbounded →
        settings.optimalityTol <
          program.artificials (program.phaseOne settings).tableau * settings.pivotTol) ∧
    ((∀ (n : Nat) (p : LinearProblem Rat m n) (program : LinearProgram Rat m n), p.check = .ok program →
      (program.phaseOne settings).ending ≠ .unbounded ∧
      (p.solve settings).result ≠ .error .infeasibilityUnbounded) ↔
        m * settings.pivotTol ≤ settings.optimalityTol) := by
  refine ⟨fun _ _ _ _ => LinearProgram.lt_artificials_mul hpivot, ?_, ?_⟩
  · intro hall
    by_contra hcover
    rw [not_le] at hcover
    have checked := check_faint m settings.pivotTol
    exact (hall 1 _ _ checked).1 (phaseOne_faint checked hoptimality hcover)
  · intro hcover n p program checked
    have hended := LinearProgram.phaseOne_ne_unbounded (p := program) hpivot hcover
    refine ⟨hended, ?_⟩
    intro hresult
    have answers := program.answers_solve settings
    rw [← solve_of_check checked, hresult] at answers
    cases answers with
    | numerical _ ended => exact hended ended

/-- With one equation the standard tolerances go together, also where the only coefficient is just too small for
a pivot element. -/
theorem infeasibilityUnbounded_iff_single : ∃ program,
    (faint 1 1e-9).check = .ok program ∧
    (0 : Rat) ≤ SimplexSettings.standard.pivotTol ∧ (0 : Rat) ≤ SimplexSettings.standard.optimalityTol ∧
    (program.phaseOne .standard).ending ≠ .unbounded ∧
    ((faint 1 1e-9).solve .standard).result ≠ .error .infeasibilityUnbounded := by
  have hpivot : (0 : Rat) ≤ SimplexSettings.standard.pivotTol := by decide +kernel
  have hoptimality : (0 : Rat) ≤ SimplexSettings.standard.optimalityTol := by decide +kernel
  have checked := check_faint 1 1e-9
  exact ⟨_, checked, hpivot, hoptimality,
    (infeasibilityUnbounded_iff 1 hpivot hoptimality).2.2 (by decide +kernel) _ _ _ checked⟩

/-- With two equations they do not: two coefficients below the tolerance for pivots add up to a reduced cost
beyond the tolerance, and a problem with a feasible point is called a numerical failure. -/
theorem infeasibilityUnbounded_two : ∃ program,
    (faint 2 6e-10).check = .ok program ∧ program.IsFeasible #v[0] ∧
    (0 : Rat) ≤ SimplexSettings.standard.pivotTol ∧ (0 : Rat) ≤ SimplexSettings.standard.optimalityTol ∧
    (0 : Rat) ≤ SimplexSettings.standard.feasibilityTol ∧
    (program.phaseOne .standard).ending = .unbounded ∧
    ((faint 2 6e-10).solve .standard).result = .error .infeasibilityUnbounded := by
  have checked := check_faint 2 6e-10
  refine ⟨_, checked, ⟨?_, ?_⟩, by decide +kernel, by decide +kernel, by decide +kernel,
    by decide +kernel, by decide +kernel⟩
  · intro i
    simp [Vectors.get_eq]
  · decide +kernel

end LinearProblem

end IntegerProgram
