import Mathlib
import IntegerProgram.Proofs.LinearProgram.Certificates

/-!
# The representation invariant of the simplex method

At every tableau between the standard form and the answer, over exact scalars and whatever the tolerances
are, the basic columns are the unit columns of their rows, the rows have the solutions of the standard form,
and the objective row prices the installed cost:

* `Tableau.replay` are the tableaux that come of making pivots one after the other. The pivots that a run
  reports lead along its trail (`Tableau.replay_run`) to its last tableau.
* `Tableau.expulsion` are the tableaux of an expulsion, row by row. Its pivots may be on negative entries;
  they keep what a tableau represents (`Tableau.Represents.of_mem_expulsion`).
* `LinearProgram.checkpoints` are the tableaux at which a solve stands, each with the cost installed there.
* `LinearProblem.solve_represents` says what holds at all of them.
-/

namespace IntegerProgram

namespace Tableau

/-! ## Runs -/

section Replay

variable {α : Type} [Scalar α] {m n : Nat} {allowed : Nat} {settings : SimplexSettings α}

/-- The tableaux that come of making pivots one after the other, from the tableau before the first one to
the tableau after the last. -/
def replay (t : Tableau α m n) (pivots : List (Pivot m n)) : List (Tableau α m n) :=
  pivots.scanl (fun u p => u.pivot p.row p.enters) t

/-- A continued run reports the pivots `done` and those that lead along its trail to its last tableau. -/
lemma replay_runFrom (allowed : Nat) (settings : SimplexSettings α) (budget : Nat)
    (t : Tableau α m n) (done : List (Pivot m n)) :
    ∃ made, (runFrom allowed settings budget t done).pivots = done.reverse ++ made ∧
      t.replay made = trail allowed settings budget t ∧
      (t.replay made).getLast? = some (runFrom allowed settings budget t done).tableau := by
  induction budget generalizing t done with
  | zero =>
    refine ⟨[], ?_, rfl, ?_⟩
    · unfold runFrom
      cases t.choose allowed settings <;> exact (List.append_nil _).symm
    · unfold runFrom
      cases t.choose allowed settings <;> rfl
  | succ budget ih =>
    unfold runFrom trail
    cases t.choose allowed settings with
    | optimal => exact ⟨[], (List.append_nil _).symm, rfl, rfl⟩
    | unbounded => exact ⟨[], (List.append_nil _).symm, rfl, rfl⟩
    | pivot p =>
      obtain ⟨made, hpivots, htrail, hlast⟩ := ih (t.pivot p.row p.enters) (p :: done)
      have hreplay : t.replay (p :: made) = t :: (t.pivot p.row p.enters).replay made :=
        List.scanl_cons
      refine ⟨p :: made, ?_, ?_, ?_⟩
      · rw [List.append_cons, ← List.reverse_cons]
        exact hpivots
      · rw [hreplay, htrail]
      · rw [hreplay, List.getLast?_cons, hlast]
        rfl

lemma replay_run (t : Tableau α m n) (budget : Nat) :
    t.replay (t.run allowed settings budget).pivots = trail allowed settings budget t := by
  obtain ⟨made, hpivots, htrail, -⟩ := replay_runFrom allowed settings budget t []
  rw [run, hpivots]
  exact htrail

lemma getLast_replay_run (t : Tableau α m n) (budget : Nat) :
    (t.replay (t.run allowed settings budget).pivots).getLast? =
      some (t.run allowed settings budget).tableau := by
  obtain ⟨made, hpivots, -, hlast⟩ := replay_runFrom allowed settings budget t []
  rw [run, hpivots]
  exact hlast

/-- The tableaux of an expulsion: the one before it, and the one after each row. -/
def expulsion (t : Tableau α m n) (real : Nat) (tol : α) : List (Tableau α m n) :=
  ((List.finRange m).scanl (expelRow real tol) (t, [])).map Prod.fst

end Replay

/-! ## Expulsions -/

variable {m n : Nat}

/-- What holds before an expulsion and is kept by pivots on entries that are not zero holds at all of its
tableaux. -/
lemma expulsion_induction (P : Tableau Rat m n → Prop) {t : Tableau Rat m n} {real : Nat} {tol : Rat}
    (htol : 0 ≤ tol) (start : P t)
    (step : ∀ u row col, P u → u.entry row col ≠ 0 → P (u.pivot row col)) :
    ∀ u ∈ t.expulsion real tol, P u := by
  -- the tableaux of the scan from some state on, whatever rows are still to come
  suffices hscan : ∀ (rows : List (Fin m)) (state : Tableau Rat m n × List (Fin m)), P state.1 →
      ∀ u ∈ (rows.scanl (expelRow real tol) state).map Prod.fst, P u from
    hscan (List.finRange m) (t, []) start
  intro rows
  induction rows with
  | nil =>
    intro state hstate u hu
    rw [List.scanl_nil] at hu
    rwa [List.mem_singleton.1 hu]
  | cons row rest ih =>
    rintro ⟨v, redundant⟩ hv u hu
    rw [List.scanl_cons, List.map_cons] at hu
    rcases List.mem_cons.1 hu with rfl | hu
    · exact hv
    · refine ih (expelRow real tol (v, redundant) row) ?_ u hu
      rcases expelRow_cases real tol v redundant row with ⟨e, -⟩ | ⟨col, e, -, -, hsize⟩ | ⟨e, -⟩
      · rwa [e]
      · rw [e]
        exact step v row col hv (abs_pos.1 (htol.trans_lt hsize))
      · rwa [e]

lemma Represents.of_mem_expulsion {t system : Tableau Rat m n} {cost : Vector Rat n} {real : Nat}
    {tol : Rat} (h : t.Represents system cost) (htol : 0 ≤ tol) :
    ∀ u ∈ t.expulsion real tol, u.Represents system cost :=
  expulsion_induction (fun u => u.Represents system cost) htol h fun _ _ _ hu hp => hu.pivot hp

end Tableau

/-! ## Solves -/

namespace LinearProgram

variable {m n : Nat}

/-- A tableau at which a solve stands, and the cost that its objective row prices, once one is installed. -/
structure Checkpoint (p : LinearProgram Rat m n) where
  installed : Option (Vector Rat p.columnCount)
  tableau : Tableau Rat p.rowCount p.columnCount

/-- The tableaux at which a solve stands: the standard form, the first phase from the installation of its
cost through all its pivots, and, unless that shows the program to be infeasible, the expulsion of the
artificials and the second phase. -/
def checkpoints (p : LinearProgram Rat m n) (settings : SimplexSettings Rat) : List p.Checkpoint :=
  if p.bounds.any Interval.isEmpty then []
  else
    let one := p.phaseOne settings
    ⟨none, p.standardForm⟩ ::
      ((p.standardForm.withObjective p.infeasibilityCost).replay one.pivots).map
        (.mk (some p.infeasibilityCost)) ++
      if one.ending = .optimal ∧ ¬ settings.feasibilityTol < one.tableau.objectiveValue then
        (one.tableau.expulsion p.realCount settings.pivotTol).map (.mk (some p.infeasibilityCost)) ++
          ((p.betweenPhases settings one.tableau).1.replay (p.secondPhase settings).pivots).map
            (.mk (some p.realCost))
      else []

namespace Checkpoint

variable {p : LinearProgram Rat m n}

/-- The representation invariant: different rows have different basic columns, each the unit column of its
row, the rows have the solutions of the standard form, and an installed cost is priced. -/
structure IsSound (point : p.Checkpoint) : Prop where
  distinct : Function.Injective point.tableau.basis.get
  canonical : point.tableau.IsCanonical
  satisfies : ∀ w, point.tableau.Satisfies w ↔ p.standardForm.Satisfies w
  prices : ∀ cost ∈ point.installed, point.tableau.Prices cost

lemma isSound_of_represents {cost : Vector Rat p.columnCount}
    {t : Tableau Rat p.rowCount p.columnCount} (h : t.Represents p.standardForm cost) :
    (⟨some cost, t⟩ : p.Checkpoint).IsSound where
  distinct _ _ e := h.canonical.injective e
  canonical := h.canonical
  satisfies := h.satisfies
  prices := by
    rintro _ ⟨⟩
    exact h.prices

end Checkpoint

variable {p : LinearProgram Rat m n} {settings : SimplexSettings Rat}

lemma isSound_standardForm : (⟨none, p.standardForm⟩ : p.Checkpoint).IsSound where
  distinct _ _ e := p.isCanonical_standardForm.injective e
  canonical := p.isCanonical_standardForm
  satisfies _ := Iff.rfl
  prices := by
    rintro _ ⟨⟩

lemma isSound_of_mem_checkpoints (htol : 0 ≤ settings.pivotTol) :
    ∀ point ∈ p.checkpoints settings, point.IsSound := by
  intro point hpoint
  unfold checkpoints at hpoint
  split at hpoint
  · cases hpoint
  · rcases List.mem_append.1 hpoint with hpoint | hpoint
    · rcases List.mem_cons.1 hpoint with rfl | hpoint
      · exact isSound_standardForm
      · obtain ⟨t, ht, rfl⟩ := List.mem_map.1 hpoint
        rw [phaseOne, Tableau.replay_run] at ht
        exact Checkpoint.isSound_of_represents (isStageOne_of_mem_trailOne htol t ht)
    · split at hpoint
      · rcases List.mem_append.1 hpoint with hpoint | hpoint
        · obtain ⟨t, ht, rfl⟩ := List.mem_map.1 hpoint
          exact Checkpoint.isSound_of_represents
            ((isStageOne_phaseOne htol).of_mem_expulsion htol t ht)
        · obtain ⟨t, ht, rfl⟩ := List.mem_map.1 hpoint
          rw [secondPhase, phaseTwo, Tableau.replay_run] at ht
          exact Checkpoint.isSound_of_represents
            (((isStageOne_phaseOne htol).represents_start htol).of_mem_trail htol t ht)
      · cases hpoint

/-- A solve that enters its second phase stands last where that phase ends. -/
lemma EntersSecond.getLast_checkpoints (entered : p.EntersSecond settings) :
    (p.checkpoints settings).getLast? =
      some ⟨some p.realCost, (p.secondPhase settings).tableau⟩ := by
  have hlast : ((p.betweenPhases settings (p.phaseOne settings).tableau).1.replay
      (p.secondPhase settings).pivots).getLast? = some (p.secondPhase settings).tableau :=
    Tableau.getLast_replay_run _ _
  unfold checkpoints
  rw [if_neg (Bool.eq_false_iff.1 entered.nonempty)]
  simp only [entered.ended, entered.within, not_false_eq_true, and_self, if_true]
  rw [List.getLast?_append, List.getLast?_append, List.getLast?_map, hlast]
  rfl

end LinearProgram

namespace LinearProblem

variable {m n : Nat}

/-- The representation invariant holds from the standard form to the answer, through both phases and the
expulsion between them: at every checkpoint the basic columns are different and are the unit columns of
their rows, the rows have the solutions of the standard form, and from its installation on the cost is
priced. An optimal point is read off the last checkpoint. -/
theorem solve_represents {p : LinearProblem Rat m n} {program : LinearProgram Rat m n}
    {settings : SimplexSettings Rat} (checked : p.check = .ok program)
    (hpivot : 0 ≤ settings.pivotTol) :
    (∀ point ∈ program.checkpoints settings, point.IsSound) ∧
    ∀ x value, (p.solve settings).result = .ok (.optimal x value) →
      ∃ point ∈ (program.checkpoints settings).getLast?,
        point.installed = some program.realCost ∧ x = program.point point.tableau := by
  rw [solve_of_check checked]
  refine ⟨LinearProgram.isSound_of_mem_checkpoints hpivot, ?_⟩
  intro x value hresult
  have answers := program.answers_solve settings
  rw [hresult] at answers
  cases answers with
  | optimal entered ended => exact ⟨_, entered.getLast_checkpoints, rfl, rfl⟩

/-- Three equations of which the last is the sum of the others. -/
def dependent : LinearProblem Rat 3 3 where
  matrix := .ofRows #v[#v[1, 0, 1], #v[1, -1, 0], #v[2, -1, 1]]
  cost := #[1, 2, -1]
  rhs := #[2, 2, 4]
  bounds := #[⟨0, some 2⟩, ⟨0, none⟩, ⟨0, none⟩]

/-- The invariant holds at all eleven tableaux on the way to an optimum where two artificials outlast the
first phase: one is expelled on a negative entry, and the other stays basic in a redundant row. -/
theorem solve_represents_dependent : ∃ program, dependent.check = .ok program ∧
    (program.checkpoints .standard).map (·.tableau.basis.toList) =
      [[4, 5, 6, 3], [4, 5, 6, 3], [4, 5, 6, 0], [2, 5, 6, 0], [2, 5, 6, 0], [2, 5, 6, 0],
        [2, 1, 6, 0], [2, 1, 6, 0], [2, 1, 6, 0], [2, 1, 6, 0], [2, 3, 6, 0]] ∧
    (∀ point ∈ program.checkpoints .standard, point.IsSound) ∧
    (dependent.solve .standard).result = .ok (.optimal #v[2, 0, 0] 2) ∧
    ∃ point ∈ (program.checkpoints .standard).getLast?,
      point.installed = some program.realCost ∧ #v[2, 0, 0] = program.point point.tableau := by
  have checked := check_eq_ok (p := dependent) rfl rfl rfl
  have hpivot : (0 : Rat) ≤ SimplexSettings.standard.pivotTol := by decide +kernel
  have solved : (dependent.solve .standard).result = .ok (.optimal #v[2, 0, 0] 2) := by
    decide +kernel
  obtain ⟨hsound, hlast⟩ := solve_represents checked hpivot
  exact ⟨_, checked, by decide +kernel, hsound, solved, hlast _ _ solved⟩

end LinearProblem

end IntegerProgram
