import Mathlib
import IntegerProgram.LinearProgram.TwoPhase
import IntegerProgram.Proofs.LinearProgram.StandardForm
import IntegerProgram.Proofs.Tableau.Stages

/-!
# Correctness of the two-phase simplex method

Over exact scalars and with all tolerances zero, the method tells the truth about a linear program, as
long as the scans for leaving rows see no near ties (`LinearProgram.Sharp`):

* The first phase ends at the least sum of artificials; it is never unbounded
  (`LinearProgram.IsStageOne.choose_ne_unbounded`), and where that is positive, no point is feasible
  (`LinearProgram.IsStageOne.objectiveValue_le`).
* The second phase starts at a cleared tableau (`LinearProgram.IsStageOne.isStageTwo_start`) and ends at
  an optimal point (`LinearProgram.IsStageTwo.certifies_optimal`) or at a ray of falling cost
  (`LinearProgram.IsStageTwo.certifies_unbounded`).
* `LinearProblem.solve_correct` puts the answers of a checked problem together.
-/

namespace IntegerProgram

/-- All tolerances are zero. -/
structure SimplexSettings.IsExact (settings : SimplexSettings Rat) : Prop where
  pivotTol : settings.pivotTol = 0
  optimalityTol : settings.optimalityTol = 0
  feasibilityTol : settings.feasibilityTol = 0

namespace LinearProgram

variable {m n : Nat}

/-- What an outcome after some counted pivots says about a program. -/
def Certifies (p : LinearProgram Rat m n) (settings : SimplexSettings Rat) (pivots : Nat) :
    Outcome Rat n → Prop
  | .optimal x value => p.IsFeasible x ∧ value = Vectors.inner p.cost x ∧
      ∀ z, p.IsFeasible z → Vectors.inner p.cost x ≤ Vectors.inner p.cost z
  | .infeasible => ∀ z, ¬ p.IsFeasible z
  | .unbounded => ∀ bound, ∃ z, p.IsFeasible z ∧ Vectors.inner p.cost z < bound
  | .pivotLimit => pivots = settings.maxPivots

/-- The tableaux of the first phase. -/
def trailOne (p : LinearProgram Rat m n) (settings : SimplexSettings Rat) :
    List (Tableau Rat p.rowCount p.columnCount) :=
  Tableau.trail p.columnCount settings settings.maxPivots
    (p.standardForm.withObjective p.infeasibilityCost)

/-- The tableaux of the second phase. -/
def trailTwo (p : LinearProgram Rat m n) (settings : SimplexSettings Rat) :
    List (Tableau Rat p.rowCount p.columnCount) :=
  Tableau.trail p.realCount settings
    (settings.maxPivots - (p.phaseOne settings).pivots.length)
    (p.betweenPhases settings (p.phaseOne settings).tableau).1

/-- No scan for a leaving row in the solution of a program sees near ties. The first phase takes place if
no interval is empty, the second if the first ends at an infeasibility within the tolerance. -/
def Sharp (p : LinearProgram Rat m n) (settings : SimplexSettings Rat) : Prop :=
  p.bounds.any Interval.isEmpty = false →
    (∀ t ∈ p.trailOne settings, t.Sharp p.columnCount settings) ∧
    ((p.phaseOne settings).ending = .optimal →
      (p.phaseOne settings).tableau.objectiveValue ≤ settings.feasibilityTol →
      ∀ t ∈ p.trailTwo settings, t.Sharp p.realCount settings)

instance (p : LinearProgram Rat m n) (settings : SimplexSettings Rat) :
    Decidable (p.Sharp settings) :=
  inferInstanceAs (Decidable (_ → _ ∧ (_ → _ → _)))

variable {p : LinearProgram Rat m n} {settings : SimplexSettings Rat}

/-! ## The first phase -/

/-- A stage of the first phase: the tableau represents the standard form with the cost of the
artificials. -/
abbrev IsStageOne (p : LinearProgram Rat m n) (t : Tableau Rat p.rowCount p.columnCount) : Prop :=
  t.Represents p.standardForm p.infeasibilityCost

/-- A stage of the second phase: the tableau represents the standard form with the real cost, and what is
left of the artificials sits in cleared rows. -/
structure IsStageTwo (p : LinearProgram Rat m n) (t : Tableau Rat p.rowCount p.columnCount) :
    Prop where
  represents : t.Represents p.standardForm p.realCost
  feasible : t.IsFeasible
  cleared : t.IsCleared p.realCount

/-- The tableau in which the first phase starts. -/
lemma isStageOne_start : p.IsStageOne (p.standardForm.withObjective p.infeasibilityCost) where
  canonical := p.isCanonical_standardForm
  satisfies := fun _ => Iff.rfl
  prices := p.isCanonical_standardForm.prices_withObjective _

/-- The first phase passes through stages only. -/
lemma isStageOne_of_mem_trailOne (htol : 0 ≤ settings.pivotTol) :
    ∀ t ∈ p.trailOne settings, p.IsStageOne t :=
  isStageOne_start.of_mem_trail htol

/-- Without near ties the first phase has no negative right-hand side. -/
lemma isFeasible_of_mem_trailOne (exact : settings.IsExact)
    (hbounds : ∀ j, (p.bounds.get j).isEmpty = false)
    (hsharp : ∀ t ∈ p.trailOne settings, t.Sharp p.columnCount settings) :
    ∀ t ∈ p.trailOne settings, t.IsFeasible := by
  have hstart : (p.standardForm.withObjective p.infeasibilityCost).IsFeasible :=
    p.isFeasible_standardForm hbounds
  exact hstart.of_mem_trail exact.pivotTol hsharp

/-- The sum of the artificials cannot fall without end. -/
lemma IsStageOne.choose_ne_unbounded {t : Tableau Rat p.rowCount p.columnCount} (h : p.IsStageOne t)
    (hf : t.IsFeasible) (exact : settings.IsExact) :
    t.choose p.columnCount settings ≠ .unbounded := by
  intro hc
  obtain ⟨col, -, hred, hcol⟩ := Tableau.column_of_unbounded hc
  rw [exact.optimalityTol, neg_zero] at hred
  rw [exact.pivotTol] at hcol
  obtain ⟨step, hstep, hlt⟩ := h.prices.exists_ray_lt h.canonical hred 0
  have hnonneg : 0 ≤ ∑ i, t.ray col step (p.artificialColumn i) := by
    apply Finset.sum_nonneg
    intro i _
    exact hf.ray_nonneg hcol hstep _
  rw [sum_infeasibilityCost] at hlt
  linarith

/-- A feasible point has no artificials, so the least sum of artificials is not positive. -/
lemma IsStageOne.objectiveValue_le {t : Tableau Rat p.rowCount p.columnCount} (h : p.IsStageOne t)
    (exact : settings.IsExact) (hc : t.choose p.columnCount settings = .optimal)
    {z : Vector Rat n} (hz : p.IsFeasible z) : t.objectiveValue ≤ 0 := by
  have hle := h.prices.le_cost ((h.satisfies _).2 hz.lift_satisfies) (by
    intro j
    have hred := Tableau.reduced_of_optimal hc j j.isLt
    rw [exact.optimalityTol, neg_zero] at hred
    exact mul_nonneg hred (hz.lift_nonneg j))
  rw [sum_infeasibilityCost] at hle
  simpa only [lift, columnVector_artificial, Finset.sum_const_zero] using hle

/-- When the sum of artificials is not positive, each basic artificial is zero. -/
lemma IsStageOne.isZeroBeyond {t : Tableau Rat p.rowCount p.columnCount} (h : p.IsStageOne t)
    (hf : t.IsFeasible) (hle : t.objectiveValue ≤ 0) : t.IsZeroBeyond p.realCount := by
  have hnonneg : ∀ c, 0 ≤ t.spread t.rhs c := Tableau.spread_nonneg hf
  have hsum := h.prices.cost_spread h.canonical
  rw [sum_infeasibilityCost] at hsum
  have hzero : ∀ i, t.spread t.rhs (p.artificialColumn i) = 0 := by
    have := (Finset.sum_eq_zero_iff_of_nonneg fun i _ => hnonneg (p.artificialColumn i)).1
      (le_antisymm (hsum.trans_le hle) (Finset.sum_nonneg fun i _ => hnonneg _))
    intro i
    exact this i (Finset.mem_univ i)
  intro k hk
  obtain ⟨i, hi⟩ := exists_artificialColumn hk
  -- The right-hand side is one of the terms that add up to the artificial.
  have hterm := (Finset.sum_eq_zero_iff_of_nonneg (fun l _ => by
    split
    · exact hf l
    · exact le_refl 0)).1 (hzero i) k (Finset.mem_univ k)
  rwa [if_pos hi] at hterm

/-! ## The second phase -/

/-- The tableau in which the second phase starts. -/
lemma IsStageOne.isStageTwo_start {t : Tableau Rat p.rowCount p.columnCount} (h : p.IsStageOne t)
    (exact : settings.IsExact) (hf : t.IsFeasible) (hle : t.objectiveValue ≤ 0) :
    p.IsStageTwo (p.betweenPhases settings t).1 := by
  have hzero := h.isZeroBeyond hf hle
  have hex := h.canonical.expelled hzero
  have e : (p.betweenPhases settings t).1
      = (t.expel p.realCount 0).1.withObjective p.realCost := by
    unfold betweenPhases
    rw [exact.pivotTol]
  rw [e]
  refine ⟨⟨hex.canonical, ?_, hex.canonical.prices_withObjective _⟩, ?_, ?_⟩
  · intro w
    exact (hex.satisfies w).trans (h.satisfies w)
  · intro i
    show 0 ≤ (t.expel p.realCount 0).1.rhs i
    rw [hex.rhs]
    exact hf i
  · exact hex.isCleared hzero

/-- A run on the real columns without near ties passes through stages only. -/
lemma IsStageTwo.of_mem_trail {t : Tableau Rat p.rowCount p.columnCount} {budget : Nat}
    (h : p.IsStageTwo t) (exact : settings.IsExact)
    (hsharp : ∀ u ∈ Tableau.trail p.realCount settings budget t, u.Sharp p.realCount settings) :
    ∀ u ∈ Tableau.trail p.realCount settings budget t, p.IsStageTwo u := by
  intro u hu
  exact ⟨h.represents.of_mem_trail exact.pivotTol.ge u hu,
    h.feasible.of_mem_trail exact.pivotTol hsharp u hu, h.cleared.of_mem_trail exact.pivotTol.ge u hu⟩

/-- The point of a stage is feasible and costs the objective value. -/
lemma IsStageTwo.point {t : Tableau Rat p.rowCount p.columnCount} (h : p.IsStageTwo t) :
    p.IsFeasible (p.point t) ∧
    Vectors.inner p.cost (p.point t) = Vectors.inner p.cost p.lower + t.objectiveValue := by
  rw [point_eq_unlift h.feasible]
  constructor
  · apply isFeasible_unlift
    · exact (h.represents.satisfies _).1 h.represents.canonical.satisfies_spread
    · exact Tableau.spread_nonneg h.feasible
    · intro i
      exact h.cleared.spread_eq_zero (realCount_le_artificialColumn i)
  · rw [inner_unlift, h.represents.prices.cost_spread h.represents.canonical]

/-- When no real column improves, the point of a stage is optimal. -/
lemma IsStageTwo.certifies_optimal {t : Tableau Rat p.rowCount p.columnCount} (h : p.IsStageTwo t)
    (exact : settings.IsExact) (hc : t.choose p.realCount settings = .optimal)
    (pivots : Nat) :
    p.Certifies settings pivots (.optimal (p.point t) (p.objective (p.point t))) := by
  obtain ⟨hpoint, hcost⟩ := h.point
  refine ⟨hpoint, Vectors.dot_toList _ _, ?_⟩
  intro z hz
  have hle := h.represents.prices.le_cost ((h.represents.satisfies _).2 hz.lift_satisfies) (by
    -- Real columns have no negative reduced cost, and the artificials of a point are zero.
    intro c
    rcases Nat.lt_or_ge c.val p.realCount with hreal | hart
    · have hred := Tableau.reduced_of_optimal hc c hreal
      rw [exact.optimalityTol, neg_zero] at hred
      exact mul_nonneg hred (hz.lift_nonneg c)
    · obtain ⟨i, rfl⟩ := exists_artificialColumn hart
      simp [lift])
  rw [sum_realCost_lift] at hle
  linarith

/-- When a real column improves and no row limits it, the cost of feasible points falls without end. -/
lemma IsStageTwo.certifies_unbounded {t : Tableau Rat p.rowCount p.columnCount} (h : p.IsStageTwo t)
    (exact : settings.IsExact)
    (hc : t.choose p.realCount settings = .unbounded) (pivots : Nat) :
    p.Certifies settings pivots .unbounded := by
  intro bound
  obtain ⟨col, hreal, hred, hcol⟩ := Tableau.column_of_unbounded hc
  rw [exact.optimalityTol, neg_zero] at hred
  rw [exact.pivotTol] at hcol
  obtain ⟨step, hstep, hlt⟩ := h.represents.prices.exists_ray_lt h.represents.canonical hred
    (bound - Vectors.inner p.cost p.lower)
  refine ⟨p.unlift (t.ray col step), ?_, ?_⟩
  · apply isFeasible_unlift
    · exact (h.represents.satisfies _).1 (h.represents.canonical.satisfies_ray col step)
    · exact h.feasible.ray_nonneg hcol hstep
    · intro i
      exact h.cleared.ray_eq_zero hreal step (realCount_le_artificialColumn i)
  · rw [inner_unlift]
    linarith

/-! ## The answer -/

/-- Every step of a run of pivots is a counted pivot. -/
lemma length_pivots_ofPivots {α : Type} {k l : Nat} (count : Nat) (pivots : List (Pivot k l)) :
    ((Step.ofPivots count pivots : List (Step α)).filterMap Step.pivot?).length
      = pivots.length := by
  have h : (Step.ofPivots count pivots : List (Step α)).filterMap Step.pivot?
      = (pivots.zipIdx count).map fun q => (q.1.enters.val, q.1.row.val) := by
    unfold Step.ofPivots
    rw [List.filterMap_map]
    exact congrFun List.filterMap_eq_map' _
  rw [h, List.length_map, List.length_zipIdx]

/-- The end of the first phase and notes about redundant rows are no counted pivots. -/
lemma length_pivots_phaseTwo {α : Type} {k l : Nat} (spent : Nat) (value : α)
    (redundant : List (Fin k)) (pivots : List (Pivot k l)) :
    ((Step.phaseOne spent value :: redundant.map (fun row => .redundantRow row.val) ++
      Step.ofPivots spent pivots : List (Step α)).filterMap Step.pivot?).length
      = pivots.length := by
  have h : (redundant.map fun row => (Step.redundantRow row.val : Step α)).filterMap Step.pivot?
      = [] := by
    rw [List.filterMap_map, List.filterMap_eq_nil_iff]
    intro row _
    rfl
  rw [List.filterMap_append, List.filterMap_cons, h]
  exact length_pivots_ofPivots spent pivots

/-- What follows a first phase that ended at a feasible stage is a true outcome. -/
lemma IsStageOne.solveFrom_certified {t : Tableau Rat p.rowCount p.columnCount} (h : p.IsStageOne t)
    (hf : t.IsFeasible) (exact : settings.IsExact) (hc : t.choose p.columnCount settings = .optimal)
    {spent : Nat} (hspent : spent ≤ settings.maxPivots)
    (hsharp : t.objectiveValue ≤ settings.feasibilityTol →
      ∀ u ∈ Tableau.trail p.realCount settings (settings.maxPivots - spent)
        (p.betweenPhases settings t).1, u.Sharp p.realCount settings) :
    ∃ outcome, (p.solveFrom settings spent t).result = .ok outcome ∧
      p.Certifies settings (spent + (p.solveFrom settings spent t).iterations) outcome := by
  unfold solveFrom
  simp only
  split
  · rename_i hpos
    -- a feasible point would have brought the sum of the artificials down to zero
    refine ⟨.infeasible, rfl, ?_⟩
    intro z hz
    have := h.objectiveValue_le exact hc hz
    rw [exact.feasibilityTol] at hpos
    linarith
  · rename_i hle
    rw [not_lt] at hle
    have hstart := h.isStageTwo_start exact hf (exact.feasibilityTol ▸ hle)
    have hrun := Tableau.endsRun_run p.realCount settings (settings.maxPivots - spent)
      (p.betweenPhases settings t).1
    have hstage := hstart.of_mem_trail exact (hsharp hle) _ hrun.mem_trail
    have htwo : p.phaseTwo settings spent (p.betweenPhases settings t).1
        = (p.betweenPhases settings t).1.run p.realCount settings (settings.maxPivots - spent) := rfl
    rw [← htwo] at hrun hstage
    cases he : (p.phaseTwo settings spent (p.betweenPhases settings t).1).ending with
    | unbounded =>
      exact ⟨.unbounded, rfl, hstage.certifies_unbounded exact (hrun.unbounded he) _⟩
    | optimal => exact ⟨_, rfl, hstage.certifies_optimal exact (hrun.optimal he) _⟩
    | outOfPivots =>
      refine ⟨.pivotLimit, rfl, ?_⟩
      have hlen := hrun.spent_budget he
      have hcount := length_pivots_phaseTwo spent t.objectiveValue (p.betweenPhases settings t).2
        (p.phaseTwo settings spent (p.betweenPhases settings t).1).pivots
      show spent + List.length (List.filterMap Step.pivot? _) = settings.maxPivots
      rw [hcount, hlen]
      omega

/-- The counted pivots of a run, and then those of the rest. -/
lemma iterations_ofPivots_append {α : Type} {k l : Nat} (result : Except LinearError (Outcome α n))
    (pivots : List (Pivot k l)) (journal : List (Step α)) :
    LinearReport.iterations ⟨result, Step.ofPivots 0 pivots ++ journal⟩
      = pivots.length + LinearReport.iterations ⟨result, journal⟩ := by
  unfold LinearReport.iterations LinearReport.pivots
  rw [List.filterMap_append, List.length_append, length_pivots_ofPivots]

/-- Where and why the first phase ends. -/
lemma endsRun_phaseOne (p : LinearProgram Rat m n) (settings : SimplexSettings Rat) :
    Tableau.EndsRun (p.phaseOne settings) p.columnCount settings settings.maxPivots
      (p.standardForm.withObjective p.infeasibilityCost) 0 :=
  Tableau.endsRun_run ..

/-- Whether some interval is empty, by the variables. -/
lemma any_isEmpty_iff {α : Type} [Scalar α] {p : LinearProgram α m n} :
    p.bounds.any Interval.isEmpty = true ↔ ∃ j, (p.bounds.get j).isEmpty = true := by
  rw [Vector.any_eq_true]
  constructor
  · rintro ⟨j, hj, he⟩
    exact ⟨⟨j, hj⟩, he⟩
  · rintro ⟨j, he⟩
    exact ⟨j.val, j.isLt, he⟩

/-- Where no interval is empty, the interval of each variable is not. -/
lemma isEmpty_eq_false (h : p.bounds.any Interval.isEmpty = false) (j : Fin n) :
    (p.bounds.get j).isEmpty = false := by
  rw [← Bool.not_eq_true] at h ⊢
  exact fun hj => h (any_isEmpty_iff.2 ⟨j, hj⟩)

/-- Without near ties and with all tolerances zero, a solved program has a true outcome. -/
lemma solve_certified (exact : settings.IsExact) (hsharp : p.Sharp settings) :
    ∃ outcome, (p.solve settings).result = .ok outcome ∧
      p.Certifies settings (p.solve settings).iterations outcome := by
  unfold solve
  simp only
  split
  · rename_i hempty
    obtain ⟨j, hj⟩ := any_isEmpty_iff.1 hempty
    refine ⟨.infeasible, rfl, ?_⟩
    intro z hz
    rw [(hz.within j).not_isEmpty] at hj
    cases hj
  · rename_i hempty
    have hbounds := isEmpty_eq_false (Bool.eq_false_iff.2 hempty)
    obtain ⟨hone, htwo⟩ := hsharp (Bool.eq_false_iff.2 hempty)
    have hrun := p.endsRun_phaseOne settings
    have hstage := isStageOne_of_mem_trailOne exact.pivotTol.ge _ hrun.mem_trail
    have hf := isFeasible_of_mem_trailOne exact hbounds hone _ hrun.mem_trail
    cases he : (p.phaseOne settings).ending with
    | unbounded => exact absurd (hrun.unbounded he) (hstage.choose_ne_unbounded hf exact)
    | outOfPivots =>
      refine ⟨.pivotLimit, rfl, ?_⟩
      show List.length (List.filterMap Step.pivot? _) = settings.maxPivots
      rw [length_pivots_ofPivots, hrun.spent_budget he]
    | optimal =>
      obtain ⟨outcome, hres, hcert⟩ := hstage.solveFrom_certified hf exact
        (hrun.optimal he) hrun.within_budget (htwo he)
      refine ⟨outcome, hres, ?_⟩
      rw [iterations_ofPivots_append]
      exact hcert

end LinearProgram

namespace LinearProblem

variable {m n : Nat}

/-- Over exact scalars a stated problem has no defect once its lengths agree. -/
lemma check_eq_ok {p : LinearProblem Rat m n} (hcost : p.cost.size = n) (hrhs : p.rhs.size = m)
    (hbounds : p.bounds.size = n) :
    p.check = .ok ⟨p.matrix, ⟨p.cost, hcost⟩, ⟨p.rhs, hrhs⟩, ⟨p.bounds, hbounds⟩⟩ := by
  have hbound : (p.bounds.toList.zipIdx.findSome? fun (i, j) => boundDefect? j i) = none := by
    rw [List.findSome?_eq_none_iff]
    intro i _
    show (if i.1.upper.any Scalar.isNaN then _ else none) = none
    rw [if_neg]
    cases i.1.upper with
    | none => simp
    | some u => exact Bool.false_ne_true
  have hfinite : ∀ values : Array Rat, values.all Scalar.isFinite = true := by
    intro values
    rw [Array.all_eq_true]
    intro i _
    rfl
  unfold check
  rw [dif_pos hcost, dif_pos hrhs, dif_pos hbounds, hbound]
  simp only [hfinite, Bool.and_self, if_true]

/-- A checked problem is solved as the program it states. -/
lemma solve_of_check {α : Type} [Scalar α] {p : LinearProblem α m n} {program : LinearProgram α m n}
    {settings : SimplexSettings α} (checked : p.check = .ok program) :
    p.solve settings = program.solve settings := by
  unfold solve
  rw [checked]

/-- The simplex method is correct: with all tolerances zero and without near ties, a checked problem is
solved, and the outcome is true. An optimal point is feasible and cheapest, infeasibility and
unboundedness are what they say, and the pivot limit is reported only when all pivots are spent. -/
theorem solve_correct {p : LinearProblem Rat m n} {program : LinearProgram Rat m n}
    {settings : SimplexSettings Rat} (checked : p.check = .ok program) (exact : settings.IsExact)
    (sharp : program.Sharp settings) :
    ∃ outcome, (p.solve settings).result = .ok outcome ∧
      program.Certifies settings (p.solve settings).iterations outcome := by
  rw [solve_of_check checked]
  exact LinearProgram.solve_certified exact sharp

/-- Two variables, one bounded on both sides, and three equations of which one is repeated. -/
def repeated : LinearProblem Rat 3 2 where
  matrix := .ofRows #v[#v[1, 1], #v[1, 1], #v[-2, 1]]
  cost := #[1, 3]
  rhs := #[2, 2, -2]
  bounds := #[⟨-1, some (3 / 2)⟩, ⟨0, none⟩]

/-- A problem with a redundant row, a negative right-hand side and bounds off zero is solved. -/
theorem solve_correct_repeated : ∃ program outcome,
    repeated.check = .ok program ∧ program.Sharp ⟨50, 0, 0, 0⟩ ∧
    (repeated.solve ⟨50, 0, 0, 0⟩).result = .ok outcome ∧
    program.Certifies ⟨50, 0, 0, 0⟩ (repeated.solve ⟨50, 0, 0, 0⟩).iterations outcome := by
  have checked := check_eq_ok (p := repeated) rfl rfl rfl
  have sharp : LinearProgram.Sharp ⟨repeated.matrix, ⟨repeated.cost, rfl⟩, ⟨repeated.rhs, rfl⟩,
      ⟨repeated.bounds, rfl⟩⟩ ⟨50, 0, 0, 0⟩ := by
    decide +kernel
  obtain ⟨outcome, hres, hcert⟩ := solve_correct checked ⟨rfl, rfl, rfl⟩ sharp
  exact ⟨_, outcome, checked, sharp, hres, hcert⟩

end LinearProblem

end IntegerProgram
