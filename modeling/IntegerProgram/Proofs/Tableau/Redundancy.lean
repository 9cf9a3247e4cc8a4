import Mathlib
import IntegerProgram.Proofs.LinearProgram.Checkpoints

/-!
# Redundant rows

One pass over the rows expels every column that can be expelled from the basis, over exact scalars. What is
left beyond the real columns sits in rows that say nothing about them, and no later pivot touches such a
row:

* `Tableau.basis_expel`: an expulsion takes no real column out of the basis, whatever the tolerance is.
* `Tableau.rows_pivot_of_entry_eq_zero`: a pivot leaves a row alone that has no entry in its column.
* `Tableau.IsIdle`: a row as it was before a run, which no real column makes leave.
* `Tableau.expel_settles`: the pass, and every run on the real columns after it.
-/

namespace IntegerProgram.Tableau

variable {m n : Nat} {real : Nat} {settings : SimplexSettings Rat}

/-! ## One pass -/

/-- A step of an expulsion changes the basis at most in a row with a column beyond the real ones. -/
lemma basis_expelRow (tol : Rat) (t : Tableau Rat m n) (redundant : List (Fin m)) (row : Fin m) {i : Fin m}
    (hi : (t.basis.get i).val < real) :
    (expelRow real tol (t, redundant) row).1.basis.get i = t.basis.get i := by
  rcases expelRow_cases real tol t redundant row with ⟨e, -⟩ | ⟨col, e, hge, -⟩ | ⟨e, -⟩
  · rw [e]
  · have hne : row ≠ i := by
      rintro rfl
      omega
    rw [e, basis_pivot, if_neg hne]
  · rw [e]

/-- An expulsion takes no real column out of the basis. -/
lemma basis_expel (t : Tableau Rat m n) (tol : Rat) {i : Fin m} (hi : (t.basis.get i).val < real) :
    (t.expel real tol).1.basis.get i = t.basis.get i := by
  unfold Tableau.expel
  -- the basis after some rows of the fold, whatever rows are still to come
  suffices hfold : ∀ (rows : List (Fin m)) (state : Tableau Rat m n × List (Fin m)),
      state.1.basis.get i = t.basis.get i →
      (rows.foldl (expelRow real tol) state).1.basis.get i = t.basis.get i from
    hfold (List.finRange m) (t, []) rfl
  intro rows
  induction rows with
  | nil => exact fun _ hstate => hstate
  | cons row rest ih =>
    rintro ⟨u, redundant⟩ hu
    apply ih
    rw [basis_expelRow tol u redundant row (by rw [hu]; exact hi)]
    exact hu

/-! ## Later runs -/

/-- A pivot leaves a row alone that has no entry in its column. -/
lemma rows_pivot_of_entry_eq_zero {t : Tableau Rat m n} {row i : Fin m} {col : Fin n}
    (hp : t.entry row col ≠ 0) (hi : t.entry i col = 0) :
    (t.pivot row col).rows.get i = t.rows.get i := by
  have hne : i ≠ row := by
    rintro rfl
    exact hp hi
  rw [rows_pivot hp, if_neg hne, hi, Row.sub_zero]

/-- Row `i` of the tableau `v` is as it was in the tableau `u`: the same equation, with right-hand side zero, and
the same basic column, with value zero in the basic solution; and no real column makes the row leave. -/
structure IsIdle (u v : Tableau Rat m n) (real : Nat) (tol : Rat) (i : Fin m) : Prop where
  row : v.rows.get i = u.rows.get i
  basis : v.basis.get i = u.basis.get i
  rhs : v.rhs i = 0
  value : v.spread v.rhs (v.basis.get i) = 0
  stays : ∀ col : Fin n, col.val < real → v.leaving col tol ≠ some i

/-- A real column makes no cleared row leave. -/
lemma IsCleared.leaving_ne {t : Tableau Rat m n} (h : t.IsCleared real) {tol : Rat} (htol : 0 ≤ tol)
    {i : Fin m} (hi : real ≤ (t.basis.get i).val) {col : Fin n} (hcol : col.val < real) :
    t.leaving col tol ≠ some i := by
  intro hleave
  have hpos := lt_entry_of_leaving hleave
  rw [(h i hi).2 col hcol] at hpos
  exact absurd htol (not_le.2 hpos)

/-- The rows beyond the real columns, at a tableau that a run from `u` reaches: cleared, and as they were. -/
structure Retains (u v : Tableau Rat m n) (real : Nat) : Prop where
  cleared : v.IsCleared real
  row : ∀ i, real ≤ (u.basis.get i).val → v.rows.get i = u.rows.get i
  basis : ∀ i, real ≤ (u.basis.get i).val → v.basis.get i = u.basis.get i

/-- A chosen pivot on a real column retains the rows beyond. -/
lemma Retains.pivot {u v : Tableau Rat m n} {p : Pivot m n} (h : u.Retains v real)
    (htol : 0 ≤ settings.pivotTol) (hp : v.IsPivot real settings p) :
    u.Retains (v.pivot p.row p.enters) real := by
  have hcol := (entering_spec hp.entering).1
  have hne := hp.entry_ne_zero htol
  have hzero : ∀ i, real ≤ (u.basis.get i).val → v.entry i p.enters = 0 := by
    intro i hi
    rw [← h.basis i hi] at hi
    exact (h.cleared i hi).2 p.enters hcol
  refine ⟨h.cleared.pivot htol hp, ?_, ?_⟩
  · intro i hi
    rw [rows_pivot_of_entry_eq_zero hne (hzero i hi), h.row i hi]
  · intro i hi
    have hrow : p.row ≠ i := by
      rintro rfl
      exact hne (hzero _ hi)
    rw [basis_pivot, if_neg hrow, h.basis i hi]

/-- A run on the real columns retains the rows beyond. -/
lemma Retains.of_mem_trail {u v : Tableau Rat m n} {budget : Nat} (h : u.Retains v real)
    (htol : 0 ≤ settings.pivotTol) : ∀ w ∈ trail real settings budget v, u.Retains w real := by
  apply trail_induction (fun w => u.Retains w real) h
  intro w _ hw p hp
  exact hw.pivot htol (isPivot_of_choose hp)

lemma Retains.isIdle {u v : Tableau Rat m n} (h : u.Retains v real) {tol : Rat} (htol : 0 ≤ tol)
    {i : Fin m} (hi : real ≤ (u.basis.get i).val) : u.IsIdle v real tol i := by
  have hbeyond : real ≤ (v.basis.get i).val := by rwa [h.basis i hi]
  exact ⟨h.row i hi, h.basis i hi, (h.cleared i hbeyond).1, h.cleared.spread_eq_zero hbeyond,
    fun col hcol => h.cleared.leaving_ne htol hbeyond hcol⟩

/-- One pass is enough. After an expulsion from a canonical tableau in which every row with a basic column
beyond the real ones has right-hand side zero, the rows still left with such a column have no real entries,
no right-hand side has changed and no real basic column is lost; and all along any run on the real columns
that follows, for whatever cost, those rows stay as they are and none of them is chosen. -/
theorem expel_settles {t : Tableau Rat m n} (canonical : t.IsCanonical)
    (zero : t.IsZeroBeyond real) :
    (∀ i, real ≤ ((t.expel real 0).1.basis.get i).val →
      ∀ j : Fin n, j.val < real → (t.expel real 0).1.entry i j = 0) ∧
    (∀ i, (t.expel real 0).1.rhs i = t.rhs i) ∧
    (∀ i, (t.basis.get i).val < real → (t.expel real 0).1.basis.get i = t.basis.get i) ∧
    ∀ (cost : Vector Rat n) (settings : SimplexSettings Rat) (budget : Nat), 0 ≤ settings.pivotTol →
      ∀ v ∈ ((t.expel real 0).1.withObjective cost).replay
          (((t.expel real 0).1.withObjective cost).run real settings budget).pivots,
        ∀ i, real ≤ ((t.expel real 0).1.basis.get i).val →
          (t.expel real 0).1.IsIdle v real settings.pivotTol i := by
  have expelled := canonical.expelled zero
  have cleared := expelled.isCleared zero
  refine ⟨fun i hi => (cleared i hi).2, expelled.rhs, fun i hi => t.basis_expel 0 hi, ?_⟩
  intro cost settings budget htol v hv i hi
  rw [replay_run] at hv
  have start : (t.expel real 0).1.Retains ((t.expel real 0).1.withObjective cost) real :=
    ⟨cleared, fun _ _ => rfl, fun _ _ => rfl⟩
  exact (start.of_mem_trail htol v hv).isIdle htol hi

/-- Two rows with basic columns beyond the first three, of which the second is twice the first on those. -/
def doubled : Tableau Rat 3 5 where
  rows := #v[⟨#v[1, 0, 1, 0, 0], 2⟩, ⟨#v[0, -1, 1, 1, 0], 0⟩, ⟨#v[0, -2, 2, 0, 1], 0⟩]
  objective := ⟨#v[0, 0, 0, 0, 0], 0⟩
  basis := #v[0, 3, 4]

/-- The first of the two rows gets a real basic column by a pivot on a negative entry, which empties the
second; a later run pivots in another row and leaves the second alone. -/
theorem expel_settles_doubled : doubled.IsCanonical ∧ doubled.IsZeroBeyond 3 ∧
    (doubled.expel 3 0).1.basis.toList = [0, 1, 4] ∧
    (((doubled.expel 3 0).1.withObjective #v[0, 0, -1, 0, 0]).run 3 .standard 9).pivots = [⟨0, 2, 0⟩] ∧
    (∀ j : Fin 5, j.val < 3 → (doubled.expel 3 0).1.entry 2 j = 0) ∧
    ∀ v ∈ ((doubled.expel 3 0).1.withObjective #v[0, 0, -1, 0, 0]).replay
        (((doubled.expel 3 0).1.withObjective #v[0, 0, -1, 0, 0]).run 3 .standard 9).pivots,
      (doubled.expel 3 0).1.IsIdle v 3 (SimplexSettings.standard : SimplexSettings Rat).pivotTol 2 := by
  have canonical : doubled.IsCanonical := by
    unfold IsCanonical
    decide +kernel
  have zero : doubled.IsZeroBeyond 3 := by
    unfold IsZeroBeyond
    decide +kernel
  have left : 3 ≤ ((doubled.expel 3 0).1.basis.get 2).val := by decide +kernel
  obtain ⟨empty, -, -, later⟩ := expel_settles canonical zero
  exact ⟨canonical, zero, by decide +kernel, by decide +kernel, empty 2 left,
    fun v hv => later _ _ 9 (by decide +kernel) v hv 2 left⟩

end IntegerProgram.Tableau
