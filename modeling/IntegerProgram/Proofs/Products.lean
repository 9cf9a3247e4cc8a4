import Mathlib
import IntegerProgram.Proofs.LinearProgram.StandardForm

/-!
# Products of full matrices

Over exact scalars the products of a sparse matrix are those of its full rows as a matrix (`dense`):

* `SparseMatrix.get_mulAdd_eq`: the combination of a product and a vector, whichever path is taken.
* `SparseMatrix.isGreatest_residual`: the residual is the largest gap of an equation.
* `LinearProgram.rhs_standardForm`: the right-hand sides with which the simplex method starts.
-/

namespace IntegerProgram

variable {m n : Nat}

namespace SparseMatrix

/-- The full rows as a matrix. -/
def dense (a : SparseMatrix Rat m n) : Matrix (Fin m) (Fin n) ℚ :=
  Matrix.of fun i j => (a.toRows.get i).get j

variable (a : SparseMatrix Rat m n)

lemma mulVec_dense (x : Vector Rat n) (i : Fin m) :
    a.dense.mulVec x.get i = ∑ j, a.entry i j * x.get j := by
  simp [Matrix.mulVec, dotProduct, dense, toRows]

/-- The scattered combination is that of the full matrix. -/
lemma get_mulAdd_eq (x : Vector Rat n) (y : Vector Rat m) (alpha beta : Rat) :
    (a.mulAdd x y alpha beta).get = alpha • a.dense.mulVec x.get + beta • y.get := by
  funext i
  rw [get_mulAdd, ← mulVec_dense]
  rfl

lemma solves_iff {x : Vector Rat n} {b : Vector Rat m} : a.Solves x b ↔ a.dense.mulVec x.get = b.get := by
  rw [funext_iff]
  simp only [mulVec_dense]
  rfl

/-- The residual is the largest gap of an equation; without equations it is zero. -/
lemma isGreatest_residual (x : Vector Rat n) (b : Vector Rat m) :
    IsGreatest ({0} ∪ Set.range fun i => |(a.dense.mulVec x.get - b.get) i|) (a.residual x b) := by
  have hgap : ∀ i, |(a.dense.mulVec x.get - b.get) i| = |∑ j, a.entry i j * x.get j - b.get i| := by
    intro i
    rw [Pi.sub_apply, mulVec_dense]
  obtain ⟨hnonneg, hle⟩ := residual_le_iff.1 (le_refl (a.residual x b))
  constructor
  · -- Without rows there is no gap to attain, and the residual is the zero it starts from.
    rcases Nat.eq_zero_or_pos m with rfl | hpos
    · refine .inl (le_antisymm (residual_le_iff.2 ⟨le_rfl, ?_⟩) hnonneg)
      exact fun i => i.elim0
    · have : Nonempty (Fin m) := ⟨⟨0, hpos⟩⟩
      obtain ⟨i, hi⟩ := Finite.exists_max fun i => |∑ j, a.entry i j * x.get j - b.get i|
      refine .inr ⟨i, (hgap i).trans (le_antisymm (hle i) ?_)⟩
      exact residual_le_iff.2 ⟨abs_nonneg _, hi⟩
  · rintro v (rfl | ⟨i, rfl⟩)
    · exact hnonneg
    · exact (hgap i).trans_le (hle i)

end SparseMatrix

namespace LinearProgram

variable (p : LinearProgram Rat m n)

lemma shiftedRhs_eq : p.shiftedRhs.get = p.rhs.get - p.matrix.dense.mulVec p.lower.get := by
  rw [shiftedRhs, SparseMatrix.get_mulAdd_eq, neg_one_smul, one_smul, neg_add_eq_sub]

/-- The simplex method starts with what the lower bounds leave of the equations, every sign turned to plus. -/
lemma rhs_standardForm (i : Fin m) :
    p.standardForm.rhs (i.castAdd _) = |(p.rhs.get - p.matrix.dense.mulVec p.lower.get) i| := by
  rw [Tableau.rhs, rows_equation, ← shiftedRhs_eq]
  exact mul_signOf _

end LinearProgram

namespace SparseMatrix

/-- Sparse products are those of the full matrix: the combination of a product and a vector for all factors, the
residual as the largest gap of an equation, zero exactly at the solutions, and the right-hand sides with which the
simplex method starts, before and after their signs are turned to plus. -/
theorem products_dense (a : SparseMatrix Rat m n) :
    (∀ (x : Vector Rat n) (y : Vector Rat m) (alpha beta : Rat), ∃ z : Vector Rat m,
      a.mulAdd? x.toArray y.toArray alpha beta = .ok z ∧
      z.get = alpha • a.dense.mulVec x.get + beta • y.get) ∧
    (∀ (x : Vector Rat n) (b : Vector Rat m), ∃ r, a.residual? x.toArray b.toArray = .ok r ∧
      IsGreatest ({0} ∪ Set.range fun i => |(a.dense.mulVec x.get - b.get) i|) r ∧
      (r = 0 ↔ a.dense.mulVec x.get = b.get)) ∧
    ∀ p : LinearProgram Rat m n,
      p.shiftedRhs.get = p.rhs.get - p.matrix.dense.mulVec p.lower.get ∧
      ∀ i, p.standardForm.rhs (i.castAdd _) = |(p.rhs.get - p.matrix.dense.mulVec p.lower.get) i| := by
  refine ⟨?_, ?_, ?_⟩
  · intro x y alpha beta
    exact ⟨_, a.mulAdd?_toArray x y alpha beta, a.get_mulAdd_eq x y alpha beta⟩
  · intro x b
    exact ⟨_, a.residual?_toArray x b, a.isGreatest_residual x b, residual_eq_zero_iff.trans a.solves_iff⟩
  · intro p
    exact ⟨p.shiftedRhs_eq, p.rhs_standardForm⟩

end SparseMatrix

end IntegerProgram
