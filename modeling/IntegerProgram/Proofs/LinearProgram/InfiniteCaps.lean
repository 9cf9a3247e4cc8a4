import Mathlib
import IntegerProgram.Proofs.LinearProgram.Truncation
import IntegerProgram.Proofs.Tableau.Embedding

/-!
# Infinite upper bounds

A linear program over binary64 numbers in which some variables without upper bound get the positive infinity for one.
Every such bound makes a row and a slack column, so that the tableau grows. Where the solve of the larger program keeps
to finite numbers, these rows take no part in it, and both programs have the same answer:

* `LinearProgram.capped` puts the infinite bounds, and `LinearProgram.StaysSteady` says that a solve keeps to finite
  numbers.
* `LinearProgram.FurtherCaps` finds the rows and columns of the smaller program in the larger one. The standard forms
  correspond (`FurtherCaps.standardForm`), and so do the tableaux of both phases (`FurtherCaps.phaseOne`,
  `FurtherCaps.secondPhase`) and the answers (`FurtherCaps.solve`).
* `LinearProblem.solve_capped` compares the answers to stated problems. `LinearProblem.solve_capped_loose` has a pivot
  in the row of an infinite bound, and there the answers differ.
-/

namespace IntegerProgram

/-- The interval with the positive infinity as upper bound if there is none. -/
def Interval.capped (i : Interval Float) : Interval Float :=
  ⟨i.lower, some (i.upper.getD Binary64.infinity)⟩

/-- The problem in which the variables of a set have the positive infinity as upper bound if they have none. -/
def LinearProblem.capped {m n : Nat} (p : LinearProblem Float m n) (vars : Nat → Bool) : LinearProblem Float m n :=
  { p with bounds := p.bounds.mapIdx fun j i => if vars j then i.capped else i }

/-- An infinite upper bound leaves no interval empty. -/
lemma Interval.isEmpty_capped (i : Interval Float) : i.capped.isEmpty = i.isEmpty := by
  obtain ⟨lower, _ | upper⟩ := i
  · exact decide_eq_false (Binary64.not_infinity_lt Binary64.nonFinite?_infinity lower)
  · rfl

namespace LinearProgram

variable {m n : Nat}

/-- The program in which the variables of a set have the positive infinity as upper bound if they have none. -/
def capped (p : LinearProgram Float m n) (vars : Nat → Bool) : LinearProgram Float m n :=
  { p with bounds := p.bounds.mapIdx fun j i => if vars j then i.capped else i }

/-- The solve keeps to steps of finite length between tableaux of finite coefficients. -/
structure StaysSteady (p : LinearProgram Float m n) (settings : SimplexSettings Float) : Prop where
  first : p.bounds.any Interval.isEmpty = false → ∀ t ∈ Tableau.trail p.columnCount settings settings.maxPivots
    (p.standardForm.withObjective p.infeasibilityCost), t.IsSteady p.columnCount settings
  between : p.EntersSecond settings →
    ∀ t ∈ (p.phaseOne settings).tableau.expulsion p.realCount settings.pivotTol, t.IsCalm
  second : p.EntersSecond settings →
    ∀ t ∈ Tableau.trail p.realCount settings (settings.maxPivots - (p.phaseOne settings).pivots.length)
      (p.betweenPhases settings (p.phaseOne settings).tableau).1, t.IsSteady p.realCount settings

instance (p : LinearProgram Float m n) (settings : SimplexSettings Float) : Decidable (p.EntersSecond settings) :=
  decidable_of_iff (p.bounds.any Interval.isEmpty = false ∧ (p.phaseOne settings).ending = .optimal ∧
      ¬ settings.feasibilityTol < (p.phaseOne settings).tableau.objectiveValue)
    ⟨fun h => ⟨h.1, h.2.1, h.2.2⟩, fun h => ⟨h.nonempty, h.ended, h.within⟩⟩

instance (p : LinearProgram Float m n) (settings : SimplexSettings Float) : Decidable (p.StaysSteady settings) :=
  decidable_of_iff
    ((p.bounds.any Interval.isEmpty = false → ∀ t ∈ Tableau.trail p.columnCount settings settings.maxPivots
        (p.standardForm.withObjective p.infeasibilityCost), t.IsSteady p.columnCount settings) ∧
      (p.EntersSecond settings →
        ∀ t ∈ (p.phaseOne settings).tableau.expulsion p.realCount settings.pivotTol, t.IsCalm) ∧
      (p.EntersSecond settings →
        ∀ t ∈ Tableau.trail p.realCount settings (settings.maxPivots - (p.phaseOne settings).pivots.length)
          (p.betweenPhases settings (p.phaseOne settings).tableau).1, t.IsSteady p.realCount settings))
    ⟨fun h => ⟨h.1, h.2.1, h.2.2⟩, fun h => ⟨h.first, h.between, h.second⟩⟩

variable {p : LinearProgram Float m n} {vars : Nat → Bool}

/-! ## Bounds -/

lemma get_bounds_capped (j : Fin n) : (p.capped vars).bounds.get j =
    if vars j then (p.bounds.get j).capped else p.bounds.get j := by
  unfold capped
  rw [Vectors.get_eq, Vectors.get_eq, Vector.getElem_mapIdx]

lemma get_lower_capped (j : Fin n) : ((p.capped vars).bounds.get j).lower = (p.bounds.get j).lower := by
  rw [get_bounds_capped]
  split <;> rfl

lemma lower_capped : (p.capped vars).lower = p.lower := by
  apply Vectors.ext_get
  intro j
  unfold lower
  rw [Vectors.get_map, Vectors.get_map, get_lower_capped]

lemma shiftedRhs_capped : (p.capped vars).shiftedRhs = p.shiftedRhs := by
  unfold shiftedRhs
  rw [lower_capped]
  rfl

/-- An upper bound stays, and a new one is infinite. -/
lemma get_upper_capped (p : LinearProgram Float m n) (vars : Nat → Bool) (j : Fin n) :
    ((p.capped vars).bounds.get j).upper = (p.bounds.get j).upper ∨
    (p.bounds.get j).upper = none ∧ ((p.capped vars).bounds.get j).upper = some Binary64.infinity := by
  rw [get_bounds_capped]
  split
  · cases hu : (p.bounds.get j).upper with
    | none => exact .inr ⟨rfl, by rw [Interval.capped, hu]; rfl⟩
    | some u => exact .inl (by rw [Interval.capped, hu]; rfl)
  · exact .inl rfl

lemma any_isEmpty_capped : (p.capped vars).bounds.any Interval.isEmpty = p.bounds.any Interval.isEmpty := by
  have hsame : ∀ j, ((p.capped vars).bounds.get j).isEmpty = (p.bounds.get j).isEmpty := by
    intro j
    rw [get_bounds_capped]
    split
    · exact Interval.isEmpty_capped _
    · rfl
  rw [Bool.eq_iff_iff, any_isEmpty_iff, any_isEmpty_iff]
  simp only [hsame]

/-! ## Rows and columns -/

lemma filterMap_sublist {β γ : Type} {f g : β → Option γ} (h : ∀ b c, f b = some c → g b = some c)
    (values : List β) : (values.filterMap f).Sublist (values.filterMap g) := by
  induction values with
  | nil => exact .slnil
  | cons b rest ih =>
    rw [List.filterMap_cons, List.filterMap_cons]
    cases hf : f b with
    | none =>
      cases g b with
      | none => exact ih
      | some c => exact ih.cons c
    | some c =>
      rw [h b c hf]
      exact ih.cons_cons c

/-- A program with further upper bounds, which are infinite. The increasing map finds the other ones among all. -/
structure FurtherCaps (p q : LinearProgram Float m n) where
  matrix : q.matrix = p.matrix
  cost : q.cost = p.cost
  lower : q.lower = p.lower
  shiftedRhs : q.shiftedRhs = p.shiftedRhs
  isEmpty : q.bounds.any Interval.isEmpty = p.bounds.any Interval.isEmpty
  index : Fin p.caps.length ↪o Fin q.caps.length
  caps : ∀ s, q.caps.get (index s) = p.caps.get s
  infinite : ∀ s ∉ Set.range index, Scalar.nonFinite? (q.caps.get s).2 = some .infinity

lemma nodup_caps (p : LinearProgram Float m n) : p.caps.Nodup := by
  refine (List.nodup_finRange n).filterMap ?_
  intro j j' cap hcap hcap'
  obtain ⟨u, -, rfl⟩ := Option.map_eq_some_iff.1 hcap
  obtain ⟨u', -, he⟩ := Option.map_eq_some_iff.1 hcap'
  exact (congrArg Prod.fst he).symm

lemma caps_sublist_capped (p : LinearProgram Float m n) (vars : Nat → Bool) :
    p.caps.Sublist (p.capped vars).caps := by
  refine filterMap_sublist ?_ _
  intro j cap hcap
  rw [get_lower_capped]
  rcases get_upper_capped p vars j with hsame | ⟨hnone, -⟩
  · rw [hsame]
    exact hcap
  · rw [hnone] at hcap
    cases hcap

/-- A new upper bound leaves an infinite width. -/
lemma mem_caps_or_infinite (hlower : ∀ j, Scalar.nonFinite? (p.bounds.get j).lower = none) {cap : Fin n × Float}
    (h : cap ∈ (p.capped vars).caps) : cap ∈ p.caps ∨ Scalar.nonFinite? cap.2 = some .infinity := by
  unfold caps at h ⊢
  simp only [List.mem_filterMap, List.mem_finRange, true_and, Option.map_eq_some_iff] at h ⊢
  obtain ⟨j, u, hu, rfl⟩ := h
  rw [get_lower_capped]
  rcases get_upper_capped p vars j with hsame | ⟨-, hcap⟩
  · exact .inl ⟨j, u, hsame ▸ hu, rfl⟩
  · rw [hcap] at hu
    cases hu
    exact .inr (Binary64.nonFinite?_infinity_sub_finite Binary64.nonFinite?_infinity (hlower j))

lemma nonempty_furtherCaps (hlower : ∀ j, Scalar.nonFinite? (p.bounds.get j).lower = none) (vars : Nat → Bool) :
    Nonempty (FurtherCaps p (p.capped vars)) := by
  obtain ⟨index, hindex⟩ := List.sublist_iff_exists_fin_orderEmbedding_get_eq.1 (p.caps_sublist_capped vars)
  refine ⟨⟨rfl, rfl, lower_capped, shiftedRhs_capped, any_isEmpty_capped, index, fun s => (hindex s).symm, ?_⟩⟩
  intro s hs
  rcases mem_caps_or_infinite hlower (List.get_mem _ s) with hmem | hinf
  · -- an old bound stands at its own place only, and the map finds it there
    obtain ⟨s', hs'⟩ := List.mem_iff_get.1 hmem
    rw [hindex] at hs'
    exact absurd ⟨s', (nodup_caps _).injective_get hs'⟩ hs
  · exact hinf

namespace FurtherCaps

variable {q : LinearProgram Float m n} (c : FurtherCaps p q)

/-- Where the rows of the smaller program stand. -/
def rows : Fin p.rowCount ↪o Fin q.rowCount :=
  sideBySide (RelEmbedding.refl _) c.index

@[simp] lemma rows_castAdd (i : Fin m) : c.rows (i.castAdd _) = i.castAdd _ :=
  sideBySide_castAdd _ _ i

@[simp] lemma rows_natAdd (s : Fin p.caps.length) : c.rows (s.natAdd m) = (c.index s).natAdd m :=
  sideBySide_natAdd _ _ s

/-- Where the columns of the smaller program stand. -/
def columns : Fin p.columnCount ↪o Fin q.columnCount :=
  sideBySide (sideBySide (RelEmbedding.refl _) c.index) (RelEmbedding.refl _)

@[simp] lemma columns_variable (j : Fin n) : c.columns (p.variableColumn j) = q.variableColumn j := by
  simp [columns, variableColumn]

@[simp] lemma columns_slack (s : Fin p.caps.length) : c.columns (p.slackColumn s) = q.slackColumn (c.index s) := by
  simp [columns, slackColumn]

@[simp] lemma columns_artificial (i : Fin m) : c.columns (p.artificialColumn i) = q.artificialColumn i := by
  simp [columns, artificialColumn]

/-- The further columns are slacks. -/
lemma notMem_columns {j : Fin q.columnCount} :
    j ∉ Set.range c.columns ↔ ∃ s ∉ Set.range c.index, j = q.slackColumn s := by
  constructor
  · intro hj
    induction j using q.column_cases with
    | hvar j => exact absurd ⟨_, c.columns_variable j⟩ hj
    | hart i => exact absurd ⟨_, c.columns_artificial i⟩ hj
    | hslack s =>
      refine ⟨s, ?_, rfl⟩
      rintro ⟨s', rfl⟩
      exact hj ⟨_, c.columns_slack s'⟩
  · rintro ⟨s, hs, rfl⟩
    exact (castAdd_notMem_range _ _).2 ((natAdd_notMem_range _ _).2 hs)

/-- The further rows are those of the further bounds. -/
lemma notMem_rows {i : Fin q.rowCount} :
    i ∉ Set.range c.rows ↔ ∃ s ∉ Set.range c.index, i = s.natAdd m := by
  constructor
  · intro hi
    induction i using q.row_cases with
    | heq i => exact absurd ⟨i.castAdd _, c.rows_castAdd i⟩ hi
    | hcap s => exact ⟨s, (natAdd_notMem_range _ _).1 hi, rfl⟩
  · rintro ⟨s, hs, rfl⟩
    exact (natAdd_notMem_range _ _).2 hs

/-- A row given by kind of column, with zeros in the further ones. -/
lemma embeds_columnVector {structural structural' : Fin n → Float} {slacks : Fin p.caps.length → Float}
    {slacks' : Fin q.caps.length → Float} {artificials : Fin m → Float} {rhs : Float}
    (hstructural : ∀ j, structural' j = structural j) (hslacks : ∀ s, slacks' (c.index s) = slacks s)
    (hzero : ∀ s ∉ Set.range c.index, (slacks' s == 0) = true) :
    Row.Embeds c.columns ⟨p.columnVector structural slacks artificials, rhs⟩
      ⟨q.columnVector structural' slacks' artificials, rhs⟩ where
  coeffs := by
    intro j
    induction j using p.column_cases with
    | hvar j => simp [hstructural]
    | hslack s => simp [hslacks]
    | hart i => simp
  rhs := rfl
  further := by
    intro j hj
    obtain ⟨s, hs, rfl⟩ := c.notMem_columns.1 hj
    rw [columnVector_slack]
    exact hzero s hs

/-- The standard forms correspond. -/
lemma standardForm : Tableau.Embeds c.rows c.columns p.standardForm q.standardForm where
  rows := by
    intro i
    induction i using p.row_cases with
    | heq i =>
      rw [rows_castAdd, rows_equation, rows_equation, c.shiftedRhs]
      unfold equationRow
      rw [c.matrix]
      exact c.embeds_columnVector (fun _ => rfl) (fun _ => rfl) fun _ _ => rfl
    | hcap s =>
      -- a slack of another bound is zero in this row, whichever of the two programs it belongs to
      rw [rows_natAdd, rows_cap, rows_cap]
      unfold capRow
      rw [c.caps]
      refine c.embeds_columnVector (fun _ => rfl) (fun s' => ?_) fun s' hs' => ?_
      · simp only [c.index.eq_iff_eq]
      · rw [if_neg (fun e => hs' ⟨s, e.symm⟩)]
        rfl
  objective := by
    refine ⟨?_, rfl, ?_⟩
    · intro j
      simp [LinearProgram.standardForm]
    · intro j _
      simp only [LinearProgram.standardForm, Vectors.get_replicate]
      rfl
  basis := by
    intro i
    induction i using p.row_cases with
    | heq i => rw [rows_castAdd, basis_equation, basis_equation, columns_artificial]
    | hcap s => rw [rows_natAdd, basis_cap, basis_cap, columns_slack]
  infinite := by
    intro i hi
    obtain ⟨s, hs, rfl⟩ := c.notMem_rows.1 hi
    unfold Tableau.rhs
    rw [rows_cap]
    exact c.infinite s hs
  furtherBasis := by
    intro i hi
    obtain ⟨s, hs, rfl⟩ := c.notMem_rows.1 hi
    rw [basis_cap]
    exact c.notMem_columns.2 ⟨s, hs, rfl⟩

/-! ## Phases -/

lemma columns_lt_columnCount (j : Fin p.columnCount) : (c.columns j).val < q.columnCount ↔ j.val < p.columnCount :=
  iff_of_true (c.columns j).isLt j.isLt

lemma columns_lt_realCount (j : Fin p.columnCount) : (c.columns j).val < q.realCount ↔ j.val < p.realCount := by
  unfold realCount
  induction j using p.column_cases with
  | hvar j => simp only [columns_variable, val_variableColumn, Nat.lt_add_right _ j.isLt]
  | hslack s => simp only [columns_slack, val_slackColumn, Nat.add_lt_add_iff_left, Fin.isLt]
  | hart i =>
    rw [columns_artificial, val_artificialColumn, val_artificialColumn]
    omega

lemma start : Tableau.Embeds c.rows c.columns (p.standardForm.withObjective p.infeasibilityCost)
    (q.standardForm.withObjective q.infeasibilityCost) := by
  have hcost : Row.Embeds c.columns ⟨p.infeasibilityCost, 0⟩ ⟨q.infeasibilityCost, 0⟩ :=
    c.embeds_columnVector (fun _ => rfl) (fun _ => rfl) fun _ _ => rfl
  refine c.standardForm.withObjective hcost.coeffs hcost.further ?_
  intro j
  rw [get_infeasibilityCost]
  split <;> rfl

variable {settings : SimplexSettings Float}

/-- The first phases make the same pivots. -/
lemma phaseOne (hpivot : 0 ≤ settings.pivotTol) (hopt : 0 ≤ settings.optimalityTol)
    (steady : q.StaysSteady settings) (nonempty : p.bounds.any Interval.isEmpty = false) :
    Tableau.Embeds.SameRun c.rows c.columns (p.phaseOne settings) (q.phaseOne settings) :=
  Tableau.Embeds.runFrom hpivot hopt c.columns_lt_columnCount settings.maxPivots c.start
    (steady.first (c.isEmpty.trans nonempty)) []

/-- The expulsion between the phases keeps the tableaux in line. -/
lemma betweenPhases {t : Tableau Float p.rowCount p.columnCount} {t' : Tableau Float q.rowCount q.columnCount}
    (h : Tableau.Embeds c.rows c.columns t t') (hpivot : 0 ≤ settings.pivotTol)
    (hcost : ∀ j, Scalar.nonFinite? (p.cost.get j) = none)
    (calm : ∀ u ∈ t'.expulsion q.realCount settings.pivotTol, u.IsCalm) :
    Tableau.Embeds c.rows c.columns (p.betweenPhases settings t).1 (q.betweenPhases settings t').1 := by
  have hfurther : ∀ j ∉ Set.range c.columns, j.val < q.realCount := by
    intro j hj
    obtain ⟨s, -, rfl⟩ := c.notMem_columns.1 hj
    exact Nat.add_lt_add_left s.isLt n
  obtain ⟨hexpel, -⟩ := h.expel hpivot c.columns_lt_realCount hfurther
    fun state hstate => calm _ (List.mem_map_of_mem hstate)
  have hreal : Row.Embeds c.columns ⟨p.realCost, 0⟩ ⟨q.realCost, 0⟩ :=
    c.embeds_columnVector (fun j => by rw [c.cost]) (fun _ => rfl) fun _ _ => rfl
  refine hexpel.withObjective hreal.coeffs hreal.further ?_
  intro j
  rw [get_realCost]
  split
  · exact hcost _
  · rfl

lemma entersSecond (one : Tableau.Embeds.SameRun c.rows c.columns (p.phaseOne settings) (q.phaseOne settings)) :
    q.EntersSecond settings ↔ p.EntersSecond settings := by
  constructor
  · rintro ⟨nonempty, ended, within⟩
    exact ⟨c.isEmpty ▸ nonempty, one.ending ▸ ended, one.tableau.objectiveValue ▸ within⟩
  · rintro ⟨nonempty, ended, within⟩
    exact ⟨c.isEmpty.trans nonempty, one.ending.trans ended, one.tableau.objectiveValue.symm ▸ within⟩

/-- The second phases make the same pivots. -/
lemma secondPhase (hpivot : 0 ≤ settings.pivotTol) (hopt : 0 ≤ settings.optimalityTol)
    (hcost : ∀ j, Scalar.nonFinite? (p.cost.get j) = none) (steady : q.StaysSteady settings)
    (entered : p.EntersSecond settings) :
    Tableau.Embeds.SameRun c.rows c.columns (p.secondPhase settings) (q.secondPhase settings) := by
  have one := c.phaseOne hpivot hopt steady entered.nonempty
  have entered' := (c.entersSecond one).2 entered
  have hstart := c.betweenPhases one.tableau hpivot hcost (steady.between entered')
  have hsecond := steady.second entered'
  unfold LinearProgram.secondPhase phaseTwo
  rw [one.length_pivots] at hsecond ⊢
  exact Tableau.Embeds.runFrom hpivot hopt c.columns_lt_realCount _ hstart hsecond []

/-! ## Answers -/

lemma columns_lt_iff (j : Fin p.columnCount) :
    ((c.columns j).val < n ↔ j.val < n) ∧ (j.val < n → (c.columns j).val = j.val) := by
  induction j using p.column_cases with
  | hvar j => simp
  | hslack s => simp
  | hart i =>
    rw [columns_artificial, val_artificialColumn, val_artificialColumn]
    omega

/-- The points that are read off are the same. -/
lemma point {t : Tableau Float p.rowCount p.columnCount} {t' : Tableau Float q.rowCount q.columnCount}
    (h : Tableau.Embeds c.rows c.columns t t') : q.point t' = p.point t := by
  refine (foldl_follows (ρ := c.rows) (R := Eq) (P := fun _ => True) ?_ ?_ c.lower.symm (fun _ _ => trivial)).symm
  · rintro i x _ rfl _ _
    obtain ⟨hiff, hval⟩ := c.columns_lt_iff (t.basis.get i)
    unfold readRow
    simp only [h.basis, h.rhs]
    by_cases hlt : (t.basis.get i).val < n
    · simp only [hval hlt]
    · rw [dif_neg hlt, dif_neg (mt hiff.1 hlt)]
  · rintro i hi x _ rfl _
    obtain ⟨s, -, hs⟩ := c.notMem_columns.1 (h.furtherBasis i hi)
    unfold readRow
    rw [dif_neg]
    rw [hs, val_slackColumn]
    omega

/-- What follows the first phases is the same. -/
lemma solveFrom (c : FurtherCaps p q) (hpivot : 0 ≤ settings.pivotTol) (hopt : 0 ≤ settings.optimalityTol)
    (hcost : ∀ j, Scalar.nonFinite? (p.cost.get j) = none) (steady : q.StaysSteady settings)
    (nonempty : p.bounds.any Interval.isEmpty = false) (ended : (p.phaseOne settings).ending = .optimal) :
    (q.solveFrom settings (q.phaseOne settings).pivots.length (q.phaseOne settings).tableau).result =
      (p.solveFrom settings (p.phaseOne settings).pivots.length (p.phaseOne settings).tableau).result ∧
    (q.solveFrom settings (q.phaseOne settings).pivots.length (q.phaseOne settings).tableau).iterations =
      (p.solveFrom settings (p.phaseOne settings).pivots.length (p.phaseOne settings).tableau).iterations := by
  have hvalue := (c.phaseOne hpivot hopt steady nonempty).tableau.objectiveValue
  by_cases positive : settings.feasibilityTol < (p.phaseOne settings).tableau.objectiveValue
  · have hnone : ∀ (spent : Nat) (value : Float),
        LinearReport.iterations (⟨.ok .infeasible, [.phaseOne spent value]⟩ : LinearReport Float n) = 0 :=
      fun _ _ => rfl
    unfold LinearProgram.solveFrom
    rw [if_pos positive, if_pos (hvalue.symm ▸ positive), hnone, hnone]
    exact ⟨rfl, rfl⟩
  · have entered : p.EntersSecond settings := ⟨nonempty, ended, positive⟩
    have two := c.secondPhase hpivot hopt hcost steady entered
    have positive' : ¬ settings.feasibilityTol < (q.phaseOne settings).tableau.objectiveValue :=
      hvalue.symm ▸ positive
    have hphase : ∀ r : LinearProgram Float m n, r.phaseTwo settings (r.phaseOne settings).pivots.length
        (r.betweenPhases settings (r.phaseOne settings).tableau).1 = r.secondPhase settings := fun _ => rfl
    constructor
    · unfold LinearProgram.solveFrom
      rw [if_neg positive, if_neg positive']
      simp only [hphase, two.ending]
      cases (p.secondPhase settings).ending with
      | unbounded => rfl
      | outOfPivots => rfl
      | optimal =>
        simp only [c.point two.tableau, LinearProgram.objective, c.cost]
    · rw [(reportsSecond_solveFrom q settings _ positive').iterations,
        (reportsSecond_solveFrom p settings _ positive).iterations, hphase, hphase, two.length_pivots]

/-- Both programs have the same answer after as many pivots. -/
lemma solve (c : FurtherCaps p q) (hpivot : 0 ≤ settings.pivotTol) (hopt : 0 ≤ settings.optimalityTol)
    (hcost : ∀ j, Scalar.nonFinite? (p.cost.get j) = none) (steady : q.StaysSteady settings) :
    (q.solve settings).result = (p.solve settings).result ∧
    (q.solve settings).iterations = (p.solve settings).iterations := by
  cases nonempty : p.bounds.any Interval.isEmpty with
  | true =>
    unfold LinearProgram.solve
    rw [if_pos nonempty, if_pos (c.isEmpty.trans nonempty)]
    exact ⟨rfl, rfl⟩
  | false =>
    have nonempty' := c.isEmpty.trans nonempty
    have one := c.phaseOne hpivot hopt steady nonempty
    cases ended : (p.phaseOne settings).ending with
    | unbounded =>
      rw [solve_unbounded nonempty ended, solve_unbounded nonempty' (one.ending.trans ended)]
      rw [iterations_ofPivots, iterations_ofPivots]
      exact ⟨rfl, one.length_pivots⟩
    | outOfPivots =>
      rw [solve_outOfPivots nonempty ended, solve_outOfPivots nonempty' (one.ending.trans ended)]
      rw [iterations_ofPivots, iterations_ofPivots]
      exact ⟨rfl, one.length_pivots⟩
    | optimal =>
      obtain ⟨hresult, hiterations⟩ := c.solveFrom hpivot hopt hcost steady nonempty ended
      rw [solve_optimal nonempty ended, solve_optimal nonempty' (one.ending.trans ended)]
      refine ⟨hresult, ?_⟩
      rw [iterations_ofPivots_append, iterations_ofPivots_append]
      exact congrArg₂ _ one.length_pivots hiterations

end FurtherCaps

end LinearProgram

namespace LinearProblem

variable {m n : Nat} {p : LinearProblem Float m n} {program : LinearProgram Float m n}

lemma boundDefect?_eq_none {j : Nat} {i : Interval Float} : boundDefect? j i = none ↔
    Scalar.nonFinite? i.lower = none ∧ ∀ u ∈ i.upper, Scalar.isNaN u = false := by
  unfold boundDefect?
  cases Scalar.nonFinite? i.lower with
  | some value => simp
  | none => cases i.upper <;> simp

/-- The problem that states a program. -/
def ofProgram (program : LinearProgram Float m n) : LinearProblem Float m n :=
  ⟨program.matrix, program.cost.toArray, program.rhs.toArray, program.bounds.toArray⟩

/-- Costs, right-hand sides and lower bounds are finite, and upper bounds are defined. -/
structure IsAcceptable (program : LinearProgram Float m n) : Prop where
  bounds : ∀ j, Scalar.nonFinite? (program.bounds.get j).lower = none ∧
    ∀ u ∈ (program.bounds.get j).upper, Scalar.isNaN u = false
  cost : ∀ j, Scalar.nonFinite? (program.cost.get j) = none
  rhs : ∀ i, Scalar.nonFinite? (program.rhs.get i) = none

lemma findSome?_boundDefect? {bounds : Vector (Interval Float) n} :
    (bounds.toArray.toList.zipIdx.findSome? fun (i, j) => boundDefect? j i) = none ↔
      ∀ j, Scalar.nonFinite? (bounds.get j).lower = none ∧
        ∀ u ∈ (bounds.get j).upper, Scalar.isNaN u = false := by
  rw [List.findSome?_eq_none_iff]
  constructor
  · intro h j
    refine boundDefect?_eq_none.1 (h (bounds.get j, j.val) ?_)
    rw [List.mem_zipIdx_iff_getElem?]
    simp [Vectors.get_eq]
  · rintro h ⟨i, j⟩ hmem
    rw [List.mem_zipIdx_iff_getElem?] at hmem
    simp only at hmem
    obtain ⟨hj, rfl⟩ := List.getElem?_eq_some_iff.1 hmem
    exact boundDefect?_eq_none.2 (h ⟨j, by simpa using hj⟩)

lemma all_isFinite {k : Nat} {values : Vector Float k} :
    values.toArray.all Scalar.isFinite = true ↔ ∀ j, Scalar.nonFinite? (values.get j) = none := by
  rw [Array.all_eq_true]
  simp only [Scalar.isFinite, Option.isNone_iff_eq_none]
  constructor
  · intro h j
    exact h j.val (by simp)
  · intro h j hj
    exact h ⟨j, by simpa using hj⟩

/-- A problem is accepted as a program when it states the program and that is acceptable. -/
lemma check_eq_ok_iff : p.check = .ok program ↔ p = ofProgram program ∧ IsAcceptable program := by
  constructor
  · intro checked
    unfold check at checked
    split at checked
    · split at checked
      · split at checked
        · split at checked
          · cases checked
          · rename_i hcost hrhs hbounds hdefect
            split at checked
            · rename_i hfinite
              cases checked
              rw [Bool.and_eq_true] at hfinite
              exact ⟨rfl, findSome?_boundDefect?.1 hdefect, all_isFinite.1 hfinite.1, all_isFinite.1 hfinite.2⟩
            · cases checked
        · cases checked
      · cases checked
    · cases checked
  · rintro ⟨rfl, hbounds, hcost, hrhs⟩
    unfold check ofProgram
    rw [dif_pos program.cost.size_toArray, dif_pos program.rhs.size_toArray, dif_pos program.bounds.size_toArray,
      findSome?_boundDefect?.2 hbounds]
    simp only [all_isFinite.2 hcost, all_isFinite.2 hrhs, Bool.and_self, if_true]

lemma check_capped (vars : Nat → Bool) (checked : p.check = .ok program) :
    (p.capped vars).check = .ok (program.capped vars) := by
  rw [check_eq_ok_iff] at checked ⊢
  obtain ⟨rfl, hbounds, hcost, hrhs⟩ := checked
  refine ⟨?_, ?_, hcost, hrhs⟩
  · unfold capped LinearProgram.capped ofProgram
    rw [Vector.toArray_mapIdx]
  · intro j
    refine ⟨(program.get_lower_capped j).symm ▸ (hbounds j).1, ?_⟩
    intro u hu
    rcases LinearProgram.get_upper_capped program vars j with hsame | ⟨-, hcap⟩
    · exact (hbounds j).2 u (hsame ▸ hu)
    · rw [hcap] at hu
      cases hu
      exact Binary64.isNaN_of_infinity Binary64.nonFinite?_infinity

/-- Infinite upper bounds do not change the answer as long as the solve with them keeps to finite numbers: an accepted
problem stays accepted, and if every tableau of the solve has finite coefficients and defined right-hand sides, and
every pivot is made in a row of finite ratio, then status, point and objective value or error, and the number of pivots
are those without the infinite bounds. -/
theorem solve_capped {settings : SimplexSettings Float} (vars : Nat → Bool) (checked : p.check = .ok program)
    (hpivot : 0 ≤ settings.pivotTol) (hopt : 0 ≤ settings.optimalityTol)
    (steady : (program.capped vars).StaysSteady settings) :
    (p.capped vars).check = .ok (program.capped vars) ∧
    ((p.capped vars).solve settings).result = (p.solve settings).result ∧
    ((p.capped vars).solve settings).iterations = (p.solve settings).iterations := by
  have checked' := check_capped vars checked
  obtain ⟨-, accepted⟩ := check_eq_ok_iff.1 checked
  obtain ⟨further⟩ := LinearProgram.nonempty_furtherCaps (fun j => (accepted.bounds j).1) vars
  rw [solve_of_check checked, solve_of_check checked']
  exact ⟨checked', further.solve hpivot hopt accepted.cost steady⟩

/-- Two variables that share an amount, stated twice, and one of them has no upper bound. -/
def roomy : LinearProblem Float 2 2 where
  matrix := .ofRows #v[#v[1, 1], #v[1, 1]]
  cost := #[-1, -2]
  rhs := #[4, 4]
  bounds := #[⟨0, none⟩, ⟨0, some 3⟩]

/-- The first variable enters against its infinite bound, and an equation limits it. The other equation is
redundant. -/
theorem solve_capped_roomy : ∃ program, roomy.check = .ok program ∧
    (program.capped fun _ => true).StaysSteady .standard ∧
    ((roomy.capped fun _ => true).solve .standard).result = (roomy.solve .standard).result ∧
    (roomy.solve .standard).result = .ok (.optimal #v[1, 3] (-7)) := by
  have checked : roomy.check = .ok ⟨roomy.matrix, ⟨roomy.cost, rfl⟩, ⟨roomy.rhs, rfl⟩, ⟨roomy.bounds, rfl⟩⟩ :=
    check_eq_ok_iff.2 ⟨rfl, by decide +kernel, by decide +kernel, by decide +kernel⟩
  have steady : (LinearProgram.capped ⟨roomy.matrix, ⟨roomy.cost, rfl⟩, ⟨roomy.rhs, rfl⟩, ⟨roomy.bounds, rfl⟩⟩
      fun _ => true).StaysSteady .standard := by
    decide +kernel
  obtain ⟨-, same, -⟩ := solve_capped (fun _ => true) checked (by decide +kernel) (by decide +kernel) steady
  exact ⟨_, checked, steady, same, by decide +kernel⟩

/-- One variable of negative cost, with no equation and no upper bound. -/
def loose : LinearProblem Float 0 1 where
  matrix := .empty
  cost := #[-1]
  rhs := #[]
  bounds := #[⟨0, none⟩]

/-- The row of an infinite bound limits the variable at an infinite ratio, so that a problem without least value
is solved at the infinity. -/
theorem solve_capped_loose : ∃ program, loose.check = .ok program ∧
    (loose.capped fun _ => true).check = .ok (program.capped fun _ => true) ∧
    (loose.solve .standard).result = .ok .unbounded ∧
    ((loose.capped fun _ => true).solve .standard).result =
      .ok (.optimal #v[Binary64.infinity] (-Binary64.infinity)) := by
  have checked : loose.check = .ok ⟨loose.matrix, ⟨loose.cost, rfl⟩, ⟨loose.rhs, rfl⟩, ⟨loose.bounds, rfl⟩⟩ :=
    check_eq_ok_iff.2 ⟨rfl, by decide +kernel, by decide +kernel, by decide +kernel⟩
  refine ⟨_, checked, check_capped _ checked, ?_, ?_⟩
  · decide +kernel
  · decide +kernel

end LinearProblem

end IntegerProgram
