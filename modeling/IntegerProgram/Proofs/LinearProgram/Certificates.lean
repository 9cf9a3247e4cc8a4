import Mathlib
import IntegerProgram.Proofs.LinearProgram.Phases
import IntegerProgram.Proofs.LinearProgram.TwoPhase

/-!
# What an answer proves in spite of the tolerances

Over exact scalars the last tableau of a phase bounds the cost of every feasible point from below, however
its pivots were chosen. A tolerance for reduced costs weakens the bound by at most the tolerance times the
distances of the point from its bounds (`LinearProgram.distance`):

* `LinearProgram.IsStageOne.objectiveValue_le_distance` and `LinearProgram.objectiveValue_le_cost`: weak
  duality at the end of either phase.
* `LinearProgram.IsStageOne.represents_start`: the tableau in which the second phase starts still
  stands for the program, whatever entries were passed over on the way.
* `LinearProgram.inner_point`: the cost of the point that is read off.
* `LinearProblem.solve_certificate` puts the two answers together.
-/

namespace IntegerProgram

namespace LinearProgram

variable {m n : Nat} {p : LinearProgram Rat m n} {settings : SimplexSettings Rat}

/-- The distances of a point from its lower bounds and from the upper bounds there are, added up. -/
def distance (p : LinearProgram Rat m n) (z : Vector Rat n) : Rat :=
  ∑ j, (z.get j - (p.bounds.get j).lower) +
    ∑ j, (p.bounds.get j).upper.elim 0 fun u => u - z.get j

/-- A sum over the variables with an upper bound, as a sum over all variables. -/
lemma sum_caps (f : Fin n × Rat → Rat) : ∑ s, f (p.caps.get s) =
    ∑ j, (p.bounds.get j).upper.elim 0 fun u => f (j, u - (p.bounds.get j).lower) := by
  simp only [List.get_eq_getElem]
  rw [Fin.sum_univ_fun_getElem]
  unfold caps
  rw [← List.sum_ofFn, List.ofFn_eq_map]
  induction List.finRange n with
  | nil => rfl
  | cons j rest ih =>
    rw [List.filterMap_cons, List.map_cons, List.sum_cons]
    cases hupper : (p.bounds.get j).upper with
    | none =>
      simp only [Option.map_none, Option.elim_none, zero_add]
      exact ih
    | some u =>
      simp only [Option.map_some, Option.elim_some, List.map_cons, List.sum_cons]
      rw [ih]

/-- The columns of a point of the program add up to its distance from the bounds. -/
lemma sum_lift (z : Vector Rat n) : ∑ c, p.lift z c = p.distance z := by
  have hslack : ∑ s, ((p.caps.get s).2 -
      (z.get (p.caps.get s).1 - (p.bounds.get (p.caps.get s).1).lower)) =
        ∑ j, (p.bounds.get j).upper.elim 0 fun u => u - z.get j := by
    rw [sum_caps fun cap => cap.2 - (z.get cap.1 - (p.bounds.get cap.1).lower)]
    apply Finset.sum_congr rfl
    intro j _
    congr 1
    funext u
    ring
  unfold distance
  rw [sum_columns]
  simp only [lift, columnVector_variable, columnVector_slack, columnVector_artificial,
    Finset.sum_const_zero, add_zero]
  rw [hslack]

/-! ## The two phases -/

/-- A first phase that has ended bounds the sum of the artificials, which is zero at a feasible point. -/
lemma IsStageOne.objectiveValue_le_distance {t : Tableau Rat p.rowCount p.columnCount}
    (h : p.IsStageOne t) (hc : t.choose p.columnCount settings = .optimal) {z : Vector Rat n}
    (hz : p.IsFeasible z) : t.objectiveValue ≤ settings.optimalityTol * p.distance z := by
  have hle := h.prices.le_cost_add settings.optimalityTol
    ((h.satisfies _).2 hz.lift_satisfies) fun j =>
      Tableau.neg_mul_le (Tableau.reduced_of_optimal hc j j.isLt) (hz.lift_nonneg j)
  have hzero : ∑ c, p.infeasibilityCost.get c * p.lift z c = 0 := by
    rw [sum_infeasibilityCost]
    simp only [lift, columnVector_artificial, Finset.sum_const_zero]
  rwa [hzero, zero_add, sum_lift] at hle

/-- The second phase starts at a tableau of the program with the real cost. -/
lemma IsStageOne.represents_start {t : Tableau Rat p.rowCount p.columnCount} (h : p.IsStageOne t)
    (htol : 0 ≤ settings.pivotTol) :
    (p.betweenPhases settings t).1.Represents p.standardForm p.realCost := by
  obtain ⟨hcanonical, hsatisfies⟩ := h.canonical.expel p.realCount htol
  exact ⟨hcanonical, fun w => (hsatisfies w).trans (h.satisfies w),
    hcanonical.prices_withObjective _⟩

/-- The first phase ends at one of its stages. -/
lemma isStageOne_phaseOne (htol : 0 ≤ settings.pivotTol) :
    p.IsStageOne (p.phaseOne settings).tableau :=
  isStageOne_of_mem_trailOne htol _ (p.endsRun_phaseOne settings).mem_trail

/-- Where and why the second phase ends. -/
lemma endsRun_secondPhase (p : LinearProgram Rat m n) (settings : SimplexSettings Rat) :
    Tableau.EndsRun (p.secondPhase settings) p.realCount settings
      (settings.maxPivots - (p.phaseOne settings).pivots.length)
      (p.betweenPhases settings (p.phaseOne settings).tableau).1 0 :=
  Tableau.endsRun_run ..

/-- The second phase ends at a tableau of the program with the real cost. -/
lemma represents_secondPhase (htol : 0 ≤ settings.pivotTol) :
    (p.secondPhase settings).tableau.Represents p.standardForm p.realCost :=
  ((isStageOne_phaseOne htol).represents_start htol).of_mem_trail htol _
    (p.endsRun_secondPhase settings).mem_trail

/-- Where no real column improves, the objective value bounds the cost of all feasible points. -/
lemma objectiveValue_le_cost {t : Tableau Rat p.rowCount p.columnCount}
    (h : t.Represents p.standardForm p.realCost) (hc : t.choose p.realCount settings = .optimal)
    {z : Vector Rat n} (hz : p.IsFeasible z) :
    Vectors.inner p.cost p.lower + t.objectiveValue - settings.optimalityTol * p.distance z ≤
      Vectors.inner p.cost z := by
  have hle := h.prices.le_cost_add settings.optimalityTol
    ((h.satisfies _).2 hz.lift_satisfies) (by
      -- the artificial columns, which may not enter, are zero at a feasible point
      intro c
      rcases Nat.lt_or_ge c.val p.realCount with hreal | hart
      · exact Tableau.neg_mul_le (Tableau.reduced_of_optimal hc c hreal) (hz.lift_nonneg c)
      · obtain ⟨i, rfl⟩ := exists_artificialColumn hart
        simp [lift])
  rw [sum_realCost_lift, sum_lift] at hle
  linarith

/-- The cost of the point that is read off is that of the lower bounds and the objective value, if no
variable is basic at a negative value. -/
lemma inner_point {t : Tableau Rat p.rowCount p.columnCount}
    (represents : t.Represents p.standardForm p.realCost)
    (h : ∀ i, (t.basis.get i).val < n → 0 ≤ t.rhs i) :
    Vectors.inner p.cost (p.point t) = Vectors.inner p.cost p.lower + t.objectiveValue := by
  rw [point_eq_unlift_of_nonneg h, inner_unlift,
    represents.prices.cost_spread represents.canonical]

end LinearProgram

namespace LinearProblem

variable {m n : Nat}

/-- Answers are certificates up to the tolerances, whatever ties the scans for leaving rows saw. Where a
problem is called infeasible, a feasible point would be farther from its bounds than the tolerance for
artificials allows. At an optimum, the objective value of the last tableau bounds the cost of all feasible
points, up to the tolerance for reduced costs at each unit of distance, and it is the reported value
unless a variable is basic at a negative one. -/
theorem solve_certificate {p : LinearProblem Rat m n} {program : LinearProgram Rat m n}
    {settings : SimplexSettings Rat} (checked : p.check = .ok program)
    (hpivot : 0 ≤ settings.pivotTol) (hfeasibility : 0 ≤ settings.feasibilityTol) :
    ((p.solve settings).result = .ok .infeasible →
      (∀ z, program.IsFeasible z →
        settings.feasibilityTol < settings.optimalityTol * program.distance z) ∧
      (settings.optimalityTol = 0 → ∀ z, ¬ program.IsFeasible z)) ∧
    ∀ x value, (p.solve settings).result = .ok (.optimal x value) →
      (∀ z, program.IsFeasible z →
        Vectors.inner program.cost program.lower
          + (program.secondPhase settings).tableau.objectiveValue
          - settings.optimalityTol * program.distance z ≤ Vectors.inner program.cost z) ∧
      ((∀ i, ((program.secondPhase settings).tableau.basis.get i).val < n →
          0 ≤ (program.secondPhase settings).tableau.rhs i) →
        value = Vectors.inner program.cost program.lower
          + (program.secondPhase settings).tableau.objectiveValue) := by
  rw [solve_of_check checked]
  have answers := program.answers_solve settings
  constructor
  · intro hresult
    rw [hresult] at answers
    have hfar : ∀ z, program.IsFeasible z →
        settings.feasibilityTol < settings.optimalityTol * program.distance z := by
      intro z hz
      cases answers with
      | emptyInterval hempty =>
        obtain ⟨j, hj⟩ := LinearProgram.any_isEmpty_iff.1 hempty
        rw [(hz.within j).not_isEmpty] at hj
        cases hj
      | infeasible _ ended positive =>
        have hoptimal := (program.endsRun_phaseOne settings).optimal ended
        exact positive.trans_le
          ((LinearProgram.isStageOne_phaseOne hpivot).objectiveValue_le_distance hoptimal hz)
    refine ⟨hfar, ?_⟩
    intro hzero z hz
    have hlt := hfar z hz
    rw [hzero, zero_mul] at hlt
    exact absurd hfeasibility (not_le.2 hlt)
  · intro x value hresult
    have represents := program.represents_secondPhase hpivot
    rw [hresult] at answers
    cases answers with
    | optimal entered ended =>
      refine ⟨?_, ?_⟩
      · intro z hz
        exact LinearProgram.objectiveValue_le_cost represents
          ((program.endsRun_secondPhase settings).optimal ended) hz
      · intro hnonneg
        rw [← LinearProgram.inner_point represents hnonneg]
        exact Vectors.dot_toList _ _

/-- Two equations that contradict each other. -/
def contradictory : LinearProblem Rat 2 1 where
  matrix := .ofRows #v[#v[3], #v[3]]
  cost := #[1]
  rhs := #[1, 2]
  bounds := #[⟨0, some 3⟩]

/-- The certificates of two answers under the standard tolerances: an optimum that no feasible point
undercuts by more than its distance allows, and a contradiction. -/
theorem solve_certificate_repeated :
    (∃ program x, repeated.check = .ok program ∧
      (repeated.solve .standard).result = .ok (.optimal x (10 / 3)) ∧
      ∀ z, program.IsFeasible z →
        10 / 3 - 1e-9 * program.distance z ≤ Vectors.inner program.cost z) ∧
    ∃ program, contradictory.check = .ok program ∧
      (contradictory.solve .standard).result = .ok .infeasible ∧
      ∀ z, program.IsFeasible z → 1e-7 < 1e-9 * program.distance z := by
  have hpivot : (0 : Rat) ≤ SimplexSettings.standard.pivotTol := by decide +kernel
  have hfeasibility : (0 : Rat) ≤ SimplexSettings.standard.feasibilityTol := by decide +kernel
  have checked := check_eq_ok (p := repeated) rfl rfl rfl
  have checked' := check_eq_ok (p := contradictory) rfl rfl rfl
  have solved : (repeated.solve .standard).result =
      .ok (.optimal #v[4 / 3, 2 / 3] (10 / 3)) := by
    decide +kernel
  have solved' : (contradictory.solve .standard).result = .ok .infeasible := by decide +kernel
  obtain ⟨hbound, hvalue⟩ := (solve_certificate checked hpivot hfeasibility).2 _ _ solved
  refine ⟨⟨_, _, checked, solved, ?_⟩, _, checked', solved',
    ((solve_certificate checked' hpivot hfeasibility).1 solved').1⟩
  intro z hz
  have hle := hbound z hz
  rwa [← hvalue (by decide +kernel)] at hle

end LinearProblem

end IntegerProgram
