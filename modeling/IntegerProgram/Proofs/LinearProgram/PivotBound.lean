import Mathlib
import IntegerProgram.Proofs.LinearProgram.Certificates
import IntegerProgram.Proofs.Tableau.Cycling

/-!
# How many pivots the simplex method makes

Over exact scalars, with all tolerances zero and without near ties, neither phase comes to a basis twice, so
each makes fewer pivots than there are ways to choose the basic columns. A budget of pivots that covers both
phases is never spent (`LinearProblem.solve_acyclic`).
-/

namespace IntegerProgram

namespace LinearProgram

variable {m n : Nat} {p : LinearProgram Rat m n} {settings : SimplexSettings Rat}

/-- The first phase goes through regular tableaux. -/
lemma isRegular_of_mem_trailOne (exact : settings.IsExact) (hsharp : p.Sharp settings)
    (hbounds : p.bounds.any Interval.isEmpty = false) :
    ∀ t ∈ p.trailOne settings,
      t.IsRegular p.standardForm p.infeasibilityCost p.columnCount settings := by
  have hone := (hsharp hbounds).1
  intro t ht
  exact ⟨isStageOne_of_mem_trailOne exact.pivotTol.ge t ht,
    isFeasible_of_mem_trailOne exact (isEmpty_eq_false hbounds) hone t ht, hone t ht⟩

/-- The second phase goes through regular tableaux, also where artificials have stayed in the basis. -/
lemma isRegular_of_mem_trailTwo (exact : settings.IsExact) (hsharp : p.Sharp settings)
    (entered : p.EntersSecond settings) :
    ∀ t ∈ p.trailTwo settings, t.IsRegular p.standardForm p.realCost p.realCount settings := by
  have hwithin := not_lt.1 entered.within
  have htwo := (hsharp entered.nonempty).2 entered.ended hwithin
  have hend := isRegular_of_mem_trailOne exact hsharp entered.nonempty _
    (p.endsRun_phaseOne settings).mem_trail
  have hstart := IsStageOne.isStageTwo_start hend.represents exact hend.feasible
    (exact.feasibilityTol ▸ hwithin)
  intro t ht
  have hstage := hstart.of_mem_trail exact htwo t ht
  exact ⟨hstage.represents, hstage.feasible, htwo t ht⟩

/-- The first phase makes fewer pivots than there are bases. -/
lemma length_phaseOne_lt (exact : settings.IsExact) (hsharp : p.Sharp settings)
    (hbounds : p.bounds.any Interval.isEmpty = false) :
    (p.phaseOne settings).pivots.length < p.columnCount.choose p.rowCount := by
  rw [Nat.lt_iff_add_one_le]
  refine (Tableau.length_pivots_run ..).trans_le ?_
  exact Tableau.length_trail_le exact.pivotTol exact.optimalityTol
    (isRegular_of_mem_trailOne exact hsharp hbounds)

/-- The second phase makes fewer pivots than there are bases. -/
lemma length_secondPhase_lt (exact : settings.IsExact) (hsharp : p.Sharp settings)
    (entered : p.EntersSecond settings) :
    (p.secondPhase settings).pivots.length < p.columnCount.choose p.rowCount := by
  rw [Nat.lt_iff_add_one_le]
  refine (Tableau.length_pivots_run ..).trans_le ?_
  exact Tableau.length_trail_le exact.pivotTol exact.optimalityTol
    (isRegular_of_mem_trailTwo exact hsharp entered)

end LinearProgram

namespace LinearProblem

variable {m n : Nat}

/-- The simplex method does not cycle: with all tolerances zero and without near ties, no basis occurs twice
in the first phase, nor in the second, where artificials may not enter but may still be basic. Each phase
makes fewer pivots than there are bases, so a budget of twice as many pivots is never spent. -/
theorem solve_acyclic {p : LinearProblem Rat m n} {program : LinearProgram Rat m n}
    {settings : SimplexSettings Rat} (checked : p.check = .ok program) (exact : settings.IsExact)
    (sharp : program.Sharp settings) :
    (program.bounds.any Interval.isEmpty = false →
      ((program.trailOne settings).map Tableau.columns).Nodup ∧
      (program.phaseOne settings).pivots.length <
        program.columnCount.choose program.rowCount) ∧
    (program.EntersSecond settings →
      ((program.trailTwo settings).map Tableau.columns).Nodup ∧
      (program.secondPhase settings).pivots.length <
        program.columnCount.choose program.rowCount) ∧
    (2 * program.columnCount.choose program.rowCount ≤ settings.maxPivots →
      (p.solve settings).result ≠ .ok .pivotLimit) := by
  refine ⟨?_, ?_, ?_⟩
  · intro hbounds
    exact ⟨Tableau.nodup_trail exact.pivotTol exact.optimalityTol
      (LinearProgram.isRegular_of_mem_trailOne exact sharp hbounds),
      LinearProgram.length_phaseOne_lt exact sharp hbounds⟩
  · intro entered
    exact ⟨Tableau.nodup_trail exact.pivotTol exact.optimalityTol
      (LinearProgram.isRegular_of_mem_trailTwo exact sharp entered),
      LinearProgram.length_secondPhase_lt exact sharp entered⟩
  · intro hbudget hlimit
    have answers := program.answers_solve settings
    rw [← solve_of_check checked, hlimit] at answers
    cases answers with
    | limitOne nonempty ended =>
      have hspent := (program.endsRun_phaseOne settings).length_eq ended
      have hlt := LinearProgram.length_phaseOne_lt exact sharp nonempty
      omega
    | limitTwo entered ended =>
      have hspent := (program.endsRun_secondPhase settings).length_eq ended
      have hone := LinearProgram.length_phaseOne_lt exact sharp entered.nonempty
      have htwo := LinearProgram.length_secondPhase_lt exact sharp entered
      omega

/-- A program on whose degenerate bases pivots by the steepest reduced cost go round in circles. -/
def degenerate : LinearProblem Rat 3 7 where
  matrix := .ofRows
    #v[#v[1, 0, 0, 1 / 4, -8, -1, 9], #v[0, 1, 0, 1 / 2, -12, -1 / 2, 3], #v[0, 0, 1, 0, 0, 1, 0]]
  cost := #[0, 0, 0, -3 / 4, 20, -1 / 2, 6]
  rhs := #[0, 0, 1]
  bounds := #[⟨0, none⟩, ⟨0, none⟩, ⟨0, none⟩, ⟨0, none⟩, ⟨0, none⟩, ⟨0, none⟩, ⟨0, none⟩]

/-- The degenerate program is solved within the bound on the pivots. -/
theorem solve_acyclic_degenerate : ∃ program,
    degenerate.check = .ok program ∧ program.Sharp ⟨240, 0, 0, 0⟩ ∧
    ((program.trailOne ⟨240, 0, 0, 0⟩).map Tableau.columns).Nodup ∧
    ((program.trailTwo ⟨240, 0, 0, 0⟩).map Tableau.columns).Nodup ∧
    (degenerate.solve ⟨240, 0, 0, 0⟩).result ≠ .ok .pivotLimit := by
  have checked := check_eq_ok (p := degenerate) rfl rfl rfl
  have sharp : LinearProgram.Sharp ⟨degenerate.matrix, ⟨degenerate.cost, rfl⟩,
      ⟨degenerate.rhs, rfl⟩, ⟨degenerate.bounds, rfl⟩⟩ ⟨240, 0, 0, 0⟩ := by
    decide +kernel
  obtain ⟨hone, htwo, hlimit⟩ := solve_acyclic checked ⟨rfl, rfl, rfl⟩ sharp
  exact ⟨_, checked, sharp, (hone (by decide +kernel)).1,
    (htwo ⟨by decide +kernel, by decide +kernel, by decide +kernel⟩).1, hlimit (by decide +kernel)⟩

end LinearProblem

end IntegerProgram
