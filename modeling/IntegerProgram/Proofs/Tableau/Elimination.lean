import Mathlib
import IntegerProgram.LinearProgram.Tableau
import IntegerProgram.Proofs.Exact

/-!
# Elimination

What pivoting does to the system of equations that a tableau stands for, over exact scalars:

* `Row.gap` is by how much a point misses an equation; elimination acts on gaps linearly.
* `Tableau.Satisfies`: a point satisfies all rows. A pivot on an entry that is not zero keeps the
  points that satisfy a tableau (`Tableau.satisfies_pivot`).
* `Tableau.IsCanonical`: the basic column of each row is the unit column of that row. Pivots keep it
  (`Tableau.IsCanonical.pivot`).
* `Tableau.Prices`: the objective row expresses a cost through the columns that are not basic.
  Installing an objective establishes it and pivots keep it.
* `Tableau.spread` puts values on the basic columns; with the right-hand sides it is the basic solution,
  and with a step along a column it is the ray on which a column enters.
-/

namespace IntegerProgram

namespace Row

variable {n : Nat}

/-- By how much a point misses an equation. -/
def gap (row : Row Rat n) (w : Fin n → Rat) : Rat :=
  ∑ j, row.coeffs.get j * w j - row.rhs

/-- A row is determined by its coefficients and its right-hand side. -/
lemma ext_get {r s : Row Rat n} (hc : ∀ j, r.coeffs.get j = s.coeffs.get j) (hr : r.rhs = s.rhs) :
    r = s := by
  cases r
  cases s
  simp only [Row.mk.injEq]
  exact ⟨Vectors.ext_get hc, hr⟩

@[simp] lemma coeffs_sub (row other : Row Rat n) (factor : Rat) (j : Fin n) :
    (row.sub factor other).coeffs.get j = row.coeffs.get j - factor * other.coeffs.get j := by
  simp [sub]

@[simp] lemma rhs_sub (row other : Row Rat n) (factor : Rat) :
    (row.sub factor other).rhs = row.rhs - factor * other.rhs :=
  rfl

/-- Taking no multiple of a row changes nothing. -/
lemma sub_zero (row other : Row Rat n) : row.sub 0 other = row :=
  ext_get (by simp) (by simp)

/-- Gaps are subtracted like rows. -/
lemma gap_sub (row other : Row Rat n) (factor : Rat) (w : Fin n → Rat) :
    (row.sub factor other).gap w = row.gap w - factor * other.gap w := by
  have h : ∀ j, (row.sub factor other).coeffs.get j * w j
      = row.coeffs.get j * w j - factor * (other.coeffs.get j * w j) := by
    intro j
    rw [coeffs_sub]
    ring
  unfold gap
  rw [Finset.sum_congr rfl fun j _ => h j, Finset.sum_sub_distrib, ← Finset.mul_sum, rhs_sub]
  ring

/-- The entries of a normalised row are divided by its leading entry. -/
lemma coeffs_normalize {row : Row Rat n} {col : Fin n} (h : row.coeffs.get col ≠ 0) (j : Fin n) :
    (row.normalize col).coeffs.get j = row.coeffs.get j / row.coeffs.get col := by
  rw [normalize, Vectors.get_replaceAt, Vectors.get_map]
  split
  · rename_i e
    rw [← e, div_self h]
  · rfl

/-- The gap of a normalised row is divided by the leading entry. -/
lemma gap_normalize {row : Row Rat n} {col : Fin n} (h : row.coeffs.get col ≠ 0)
    (w : Fin n → Rat) : (row.normalize col).gap w = row.gap w / row.coeffs.get col := by
  have e : ∀ j, (row.normalize col).coeffs.get j * w j
      = row.coeffs.get j * w j / row.coeffs.get col := by
    intro j
    rw [coeffs_normalize h]
    ring
  unfold gap
  rw [Finset.sum_congr rfl fun j _ => e j, ← Finset.sum_div, sub_div]
  rfl

/-- Elimination by a row that has one in the column is the subtraction of a multiple, whether or not
the row is skipped. -/
lemma eliminate_eq_sub {lead : Row Rat n} {col : Fin n} (h : lead.coeffs.get col = 1)
    (row : Row Rat n) : row.eliminate col lead = row.sub (row.coeffs.get col) lead := by
  unfold eliminate
  split
  · rename_i e
    rw [beq_iff_eq] at e
    rw [e, sub_zero]
  · apply ext_get
    · intro j
      rw [Vectors.get_replaceAt]
      split
      · rename_i e
        rw [← e, coeffs_sub, h, mul_one, sub_self]
      · rfl
    · rfl

end Row

namespace Tableau

variable {m n : Nat}

/-- A point satisfies all rows of a tableau. -/
def Satisfies (t : Tableau Rat m n) (w : Fin n → Rat) : Prop :=
  ∀ i, (t.rows.get i).gap w = 0

/-- The basic column of each row is the unit column of that row. -/
def IsCanonical (t : Tableau Rat m n) : Prop :=
  ∀ i k, t.entry k (t.basis.get i) = if k = i then 1 else 0

/-- The objective row of a tableau prices a cost: on the points that satisfy the rows it gives the cost,
and the basic columns have reduced cost zero. -/
structure Prices (t : Tableau Rat m n) (cost : Vector Rat n) : Prop where
  value : ∀ w, t.Satisfies w → ∑ j, cost.get j * w j = ∑ j, t.reduced j * w j + t.objectiveValue
  basic : ∀ i, t.reduced (t.basis.get i) = 0

/-- The basic columns of a canonical tableau are different. -/
lemma IsCanonical.injective {t : Tableau Rat m n} (h : t.IsCanonical) {i k : Fin m}
    (e : t.basis.get i = t.basis.get k) : i = k := by
  have hi := h i i
  rw [e, h k i] at hi
  by_contra hne
  rw [if_neg hne, if_pos rfl] at hi
  exact zero_ne_one hi

/-! ## Pivots -/

/-- A pivot makes its column basic in its row and leaves the other basic columns alone. -/
lemma basis_pivot (t : Tableau Rat m n) (row : Fin m) (col : Fin n) (i : Fin m) :
    (t.pivot row col).basis.get i = if row = i then col else t.basis.get i :=
  Vectors.get_replaceAt ..

section Pivot

variable {t : Tableau Rat m n} {row : Fin m} {col : Fin n} (hp : t.entry row col ≠ 0)

include hp

/-- The pivot row is divided by the pivot element; every other row loses its multiple of it. -/
lemma rows_pivot (k : Fin m) : (t.pivot row col).rows.get k
    = if k = row then (t.rows.get row).normalize col
      else (t.rows.get k).sub (t.entry k col) ((t.rows.get row).normalize col) := by
  have lead : ((t.rows.get row).normalize col).coeffs.get col = 1 := by
    rw [Row.coeffs_normalize hp]
    exact div_self hp
  show (Vectors.replaceAt _ row _).get k = _
  rw [Vectors.get_replaceAt, Vectors.get_map, Row.eliminate_eq_sub lead]
  by_cases e : row = k
  · rw [if_pos e, if_pos e.symm]
  · rw [if_neg e, if_neg fun h => e h.symm]
    rfl

/-- The objective row loses its multiple of the pivot row. -/
lemma objective_pivot : (t.pivot row col).objective
    = t.objective.sub (t.reduced col) ((t.rows.get row).normalize col) := by
  apply Row.eliminate_eq_sub
  rw [Row.coeffs_normalize hp]
  exact div_self hp

/-- The entries after a pivot. -/
lemma entry_pivot (k : Fin m) (j : Fin n) : (t.pivot row col).entry k j
    = if k = row then t.entry row j / t.entry row col
      else t.entry k j - t.entry k col * (t.entry row j / t.entry row col) := by
  rw [entry, rows_pivot hp]
  split
  · exact Row.coeffs_normalize hp j
  · rw [Row.coeffs_sub, Row.coeffs_normalize hp]
    rfl

/-- The right-hand sides after a pivot. -/
lemma rhs_pivot (k : Fin m) : (t.pivot row col).rhs k
    = if k = row then t.rhs row / t.entry row col
      else t.rhs k - t.entry k col * (t.rhs row / t.entry row col) := by
  rw [rhs, rows_pivot hp]
  split
  · rfl
  · rw [Row.rhs_sub]
    rfl

/-- A pivot in a row with right-hand side zero changes no right-hand side. -/
lemma rhs_pivot_of_eq_zero (hrhs : t.rhs row = 0) (k : Fin m) :
    (t.pivot row col).rhs k = t.rhs k := by
  rw [rhs_pivot hp, hrhs, zero_div, mul_zero, sub_zero]
  split
  · rename_i e
    rw [e, hrhs]
  · rfl

/-- The reduced costs after a pivot. -/
lemma reduced_pivot (j : Fin n) : (t.pivot row col).reduced j
    = t.reduced j - t.reduced col * (t.entry row j / t.entry row col) := by
  rw [reduced, objective_pivot hp, Row.coeffs_sub, Row.coeffs_normalize hp]
  rfl

/-- The objective value after a pivot. -/
lemma objectiveValue_pivot : (t.pivot row col).objectiveValue
    = t.objectiveValue + t.reduced col * (t.rhs row / t.entry row col) := by
  rw [objectiveValue, objective_pivot hp, Row.rhs_sub]
  show -(t.objective.rhs - t.reduced col * (t.rhs row / t.entry row col)) = _
  rw [objectiveValue]
  ring

/-- A pivot keeps the points that satisfy the rows. -/
lemma satisfies_pivot {w : Fin n → Rat} : (t.pivot row col).Satisfies w ↔ t.Satisfies w := by
  have lead : ((t.rows.get row).normalize col).gap w = (t.rows.get row).gap w / t.entry row col :=
    Row.gap_normalize hp w
  constructor
  · intro h
    have hrow : (t.rows.get row).gap w = 0 := by
      have := h row
      rw [rows_pivot hp, if_pos rfl, lead, div_eq_zero_iff] at this
      exact this.resolve_right hp
    intro k
    by_cases e : k = row
    · rw [e, hrow]
    · have := h k
      rw [rows_pivot hp, if_neg e, Row.gap_sub, lead, hrow, zero_div, mul_zero, sub_zero] at this
      exact this
  · intro h k
    rw [rows_pivot hp]
    split
    · rw [lead, h row, zero_div]
    · rw [Row.gap_sub, lead, h k, h row, zero_div, mul_zero, sub_zero]

/-- A pivot makes its column basic in its row and keeps the tableau canonical. -/
lemma IsCanonical.pivot (h : t.IsCanonical) : (t.pivot row col).IsCanonical := by
  intro i k
  rw [basis_pivot, entry_pivot hp]
  by_cases hi : row = i
  · subst hi
    rw [if_pos rfl, div_self hp, mul_one, sub_self]
  · -- A column that stays basic has zero in the pivot row, so the pivot leaves it alone.
    have hzero : t.entry row (t.basis.get i) = 0 := by
      rw [h i row, if_neg hi]
    rw [if_neg hi, hzero, zero_div, mul_zero, sub_zero, h i k]
    by_cases hk : k = row
    · rw [if_pos hk, if_neg (hk ▸ hi)]
    · rw [if_neg hk]

/-- A pivot keeps the objective row priced. -/
lemma Prices.pivot {cost : Vector Rat n} (hc : t.IsCanonical) (h : t.Prices cost) :
    (t.pivot row col).Prices cost where
  value := by
    intro w hw
    rw [satisfies_pivot hp] at hw
    have hrow : ∑ j, t.entry row j * w j = t.rhs row := by
      have := hw row
      unfold Row.gap at this
      exact sub_eq_zero.1 this
    have hsum : ∑ j, (t.pivot row col).reduced j * w j
        = ∑ j, t.reduced j * w j - t.reduced col / t.entry row col * ∑ j, t.entry row j * w j := by
      rw [Finset.mul_sum, ← Finset.sum_sub_distrib]
      apply Finset.sum_congr rfl
      intro j _
      rw [reduced_pivot hp]
      ring
    rw [h.value w hw, hsum, hrow, objectiveValue_pivot hp]
    ring
  basic := by
    intro i
    rw [basis_pivot, reduced_pivot hp]
    split
    · rw [div_self hp, mul_one, sub_self]
    · rename_i hi
      rw [h.basic i, hc i row, if_neg hi, zero_div, mul_zero, sub_zero]

end Pivot

/-! ## Objectives -/

/-- Taking out the cost of a basic column is the subtraction of a multiple of its row, whether or not
the row is skipped. -/
lemma priceOut_eq_sub (t : Tableau Rat m n) (cost : Vector Rat n) (objective : Row Rat n)
    (i : Fin m) :
    t.priceOut cost objective i = objective.sub (cost.get (t.basis.get i)) (t.rows.get i) := by
  unfold priceOut
  split
  · rename_i e
    rw [beq_iff_eq] at e
    rw [e, Row.sub_zero]
  · rfl

/-- Pricing out rows takes a combination of them out of the objective row. -/
lemma foldl_priceOut (t : Tableau Rat m n) (cost : Vector Rat n) (rows : List (Fin m))
    (objective : Row Rat n) :
    (∀ j, (rows.foldl (t.priceOut cost) objective).coeffs.get j
      = objective.coeffs.get j
        - (rows.map fun i => cost.get (t.basis.get i) * t.entry i j).sum) ∧
    (rows.foldl (t.priceOut cost) objective).rhs
      = objective.rhs - (rows.map fun i => cost.get (t.basis.get i) * t.rhs i).sum := by
  induction rows generalizing objective with
  | nil => simp
  | cons i rest ih =>
    obtain ⟨hc, hr⟩ := ih (t.priceOut cost objective i)
    constructor
    · intro j
      rw [List.foldl_cons, hc, priceOut_eq_sub, Row.coeffs_sub, List.map_cons, List.sum_cons, sub_sub]
      rfl
    · rw [List.foldl_cons, hr, priceOut_eq_sub, Row.rhs_sub, List.map_cons, List.sum_cons, sub_sub]
      rfl

/-- The reduced costs of a new objective. -/
lemma reduced_withObjective (t : Tableau Rat m n) (cost : Vector Rat n) (j : Fin n) :
    (t.withObjective cost).reduced j
      = cost.get j - ∑ i, cost.get (t.basis.get i) * t.entry i j := by
  rw [← List.sum_ofFn, List.ofFn_eq_map]
  exact (t.foldl_priceOut cost (List.finRange m) ⟨cost, 0⟩).1 j

/-- The value of a new objective. -/
lemma objectiveValue_withObjective (t : Tableau Rat m n) (cost : Vector Rat n) :
    (t.withObjective cost).objectiveValue = ∑ i, cost.get (t.basis.get i) * t.rhs i := by
  have h := (t.foldl_priceOut cost (List.finRange m) ⟨cost, 0⟩).2
  rw [← List.sum_ofFn, List.ofFn_eq_map]
  show -((List.finRange m).foldl (t.priceOut cost) ⟨cost, 0⟩).rhs = _
  rw [h]
  ring

/-- A new objective is priced. -/
lemma IsCanonical.prices_withObjective {t : Tableau Rat m n} (h : t.IsCanonical)
    (cost : Vector Rat n) : (t.withObjective cost).Prices cost where
  value := by
    intro w hw
    have hrow : ∀ i, ∑ j, t.entry i j * w j = t.rhs i := by
      intro i
      exact sub_eq_zero.1 (hw i)
    have hsum : ∑ j, (t.withObjective cost).reduced j * w j
        = ∑ j, cost.get j * w j
          - ∑ i, cost.get (t.basis.get i) * ∑ j, t.entry i j * w j := by
      simp only [reduced_withObjective, sub_mul, Finset.sum_mul, Finset.sum_sub_distrib,
        Finset.mul_sum, mul_assoc]
      rw [Finset.sum_comm]
    rw [hsum, objectiveValue_withObjective]
    simp only [hrow]
    ring
  basic := by
    intro i
    show (t.withObjective cost).reduced (t.basis.get i) = 0
    rw [reduced_withObjective]
    simp only [h i, mul_ite, mul_one, mul_zero, Finset.sum_ite_eq', Finset.mem_univ, if_true,
      sub_self]

/-! ## Basic solutions -/

/-- The point with given values at the basic columns and zero elsewhere. -/
def spread (t : Tableau Rat m n) (values : Fin m → Rat) (j : Fin n) : Rat :=
  ∑ i, if t.basis.get i = j then values i else 0

/-- The basic solution moved along a column: the column takes the step and the basic columns make up
for it. -/
def ray (t : Tableau Rat m n) (col : Fin n) (step : Rat) (j : Fin n) : Rat :=
  t.spread (fun i => t.rhs i - step * t.entry i col) j + if j = col then step else 0

/-- Values that are not negative spread to a point that is not negative. -/
lemma spread_nonneg {t : Tableau Rat m n} {values : Fin m → Rat} (h : ∀ i, 0 ≤ values i)
    (j : Fin n) : 0 ≤ t.spread values j := by
  apply Finset.sum_nonneg
  intro i _
  split
  · exact h i
  · exact le_refl 0

/-- A linear form of a spread point reads its values at the basic columns. -/
lemma sum_mul_spread (t : Tableau Rat m n) (values : Fin m → Rat) (a : Fin n → Rat) :
    ∑ j, a j * t.spread values j = ∑ i, a (t.basis.get i) * values i := by
  unfold spread
  simp only [Finset.mul_sum, mul_ite, mul_zero]
  rw [Finset.sum_comm]
  simp

/-- The basic solution satisfies the rows. -/
lemma IsCanonical.satisfies_spread {t : Tableau Rat m n} (h : t.IsCanonical) :
    t.Satisfies (t.spread t.rhs) := by
  intro k
  have hk := t.sum_mul_spread t.rhs (t.entry k)
  simp only [h _ k, ite_mul, one_mul, zero_mul, Finset.sum_ite_eq, Finset.mem_univ, if_true] at hk
  show ∑ j, t.entry k j * t.spread t.rhs j - t.rhs k = 0
  rw [hk, sub_self]

/-- A linear form along a ray: what the spread part gives, and the entering column. -/
lemma sum_mul_ray (t : Tableau Rat m n) (col : Fin n) (step : Rat) (a : Fin n → Rat) :
    ∑ j, a j * t.ray col step j
      = ∑ i, a (t.basis.get i) * (t.rhs i - step * t.entry i col) + a col * step := by
  unfold ray
  simp only [mul_add, Finset.sum_add_distrib, sum_mul_spread, mul_ite, mul_zero,
    Finset.sum_ite_eq', Finset.mem_univ, if_true]

/-- Every point of a ray satisfies the rows. -/
lemma IsCanonical.satisfies_ray {t : Tableau Rat m n} (h : t.IsCanonical) (col : Fin n)
    (step : Rat) : t.Satisfies (t.ray col step) := by
  intro k
  have hk := t.sum_mul_ray col step (t.entry k)
  simp only [h _ k, ite_mul, one_mul, zero_mul, Finset.sum_ite_eq, Finset.mem_univ, if_true] at hk
  show ∑ j, t.entry k j * t.ray col step j - t.rhs k = 0
  rw [hk]
  ring

/-- The cost along a ray changes by the reduced cost of the column. -/
lemma Prices.cost_ray {t : Tableau Rat m n} {cost : Vector Rat n} (hc : t.IsCanonical)
    (h : t.Prices cost) (col : Fin n) (step : Rat) :
    ∑ j, cost.get j * t.ray col step j = t.reduced col * step + t.objectiveValue := by
  rw [h.value _ (hc.satisfies_ray col step), sum_mul_ray]
  simp only [h.basic, zero_mul, Finset.sum_const_zero, zero_add]

/-- The cost of the basic solution is the objective value. -/
lemma Prices.cost_spread {t : Tableau Rat m n} {cost : Vector Rat n} (hc : t.IsCanonical)
    (h : t.Prices cost) : ∑ j, cost.get j * t.spread t.rhs j = t.objectiveValue := by
  rw [h.value _ hc.satisfies_spread, sum_mul_spread]
  simp only [h.basic, zero_mul, Finset.sum_const_zero, zero_add]

end Tableau

end IntegerProgram
