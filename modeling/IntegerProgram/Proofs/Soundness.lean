import Mathlib
import IntegerProgram.Proofs.Optimum

/-!
# What returned points satisfy

A search rounds the integer variables of a relaxed point and does not look at the equations again. The
returned point is always integral, but with large coefficients it may miss the equations
(`Machine.optimum_coarse`).

* `Model.IsInteger`: all entries, bounds and variables of a model are whole, as in an encoded model
  (`Encoding.selects_of_encode`).
* `Model.IsResolved`: the tolerance for integrality and the gap of the relaxed points together stay below one,
  in each equation and at each bound.
* `Model.IsInteger.solves_rounded` and `Model.IsInteger.holds_rounded`: then rounding leads to a solution in
  the box, because whole numbers that differ by less than one are equal.
* `Machine.optimum_sound` says so of everything that a search returns.
-/

namespace IntegerProgram

variable {m n k : Nat}

namespace Rational

/-- Whole numbers that differ by less than one are equal. -/
lemma eq_of_abs_sub_lt_one {p q : Rat} (hp : Scalar.IsWhole p) (hq : Scalar.IsWhole q)
    (h : |p - q| < 1) : p = q := by
  obtain ⟨a, rfl⟩ := isWhole_iff.1 hp
  obtain ⟨b, rfl⟩ := isWhole_iff.1 hq
  have hint : |a - b| < 1 := by exact_mod_cast h
  rw [sub_eq_zero.1 (Int.abs_lt_one_iff.1 hint)]

/-- A whole number that is less than one above another is not above it. -/
lemma le_of_sub_lt_one {p q : Rat} (hp : Scalar.IsWhole p) (hq : Scalar.IsWhole q)
    (h : p - q < 1) : p ≤ q := by
  obtain ⟨a, rfl⟩ := isWhole_iff.1 hp
  obtain ⟨b, rfl⟩ := isWhole_iff.1 hq
  have hint : a - b < 1 := by exact_mod_cast h
  exact_mod_cast (show a ≤ b by omega)

/-- An inner product of whole numbers is whole. -/
lemma isWhole_sum {a x : Fin n → Rat} (ha : ∀ j, Scalar.IsWhole (a j))
    (hx : ∀ j, Scalar.IsWhole (x j)) : Scalar.IsWhole (∑ j, a j * x j) := by
  choose b hb using fun j => isWhole_iff.1 (ha j)
  choose z hz using fun j => isWhole_iff.1 (hx j)
  refine isWhole_iff.2 ⟨∑ j, b j * z j, ?_⟩
  push_cast
  simp only [hb, hz]

end Rational

/-! ## The tests of a model -/

namespace Model

variable {model : Model Rat m k} {x : Vector Rat k} {tol gap : Rat}

/-- A point with a value for every variable has a residual. -/
lemma residual?_toArray (model : Model Rat m k) (x : Vector Rat k) :
    model.residual? x.toArray = .ok (model.matrix.residual x model.target) :=
  SparseMatrix.residual?_toArray ..

/-- A point with a value for every variable is tested against all bounds. -/
lemma inBounds_iff : model.inBounds x.toArray tol = true ↔
    ∀ j, (model.bounds.get j).contains (x.get j) tol = true := by
  unfold inBounds
  rw [List.all_eq_true]
  constructor
  · intro h j
    apply h (model.bounds.get j, x.get j)
    rw [List.mem_iff_getElem]
    exact ⟨j.val, by simp, by simp [Vectors.get_eq]⟩
  · intro h pair hpair
    obtain ⟨j, hj, rfl⟩ := List.mem_iff_getElem.1 hpair
    have hj : j < k := by simpa using hj
    simpa [Vectors.get_eq] using h ⟨j, hj⟩

/-- The points that pass the test for bounds without a tolerance are those of the box. -/
lemma inBounds_zero : model.inBounds x.toArray 0 = true ↔ model.box.Holds x := by
  rw [inBounds_iff, holds_box_iff]
  simp [Interval.contains, Interval.Holds, Option.all_eq_true]

/-- The points that pass the test for integrality without a tolerance are the integral ones. -/
lemma isIntegral_zero (h : model.Integral x) : model.isIntegral x.toArray 0 = .ok true := by
  rw [isIntegral_eq]
  exact congrArg Except.ok (List.all_eq_true.2 fun i hi => decide_eq_true (h i hi))

/-! ## Rounding in whole-number models -/

/-- The entries, the target and the bounds of a model are whole, and so must be all variables. -/
structure IsInteger (model : Model Rat m k) : Prop where
  entry : ∀ i j, Scalar.IsWhole (model.matrix.entry i j)
  target : ∀ i, Scalar.IsWhole (model.target.get i)
  lower : ∀ j, Scalar.IsWhole (model.bounds.get j).lower
  upper : ∀ j, ∀ u ∈ (model.bounds.get j).upper, Scalar.IsWhole u
  integers : ∀ j, j ∈ model.integers

/-- Rounding by a tolerance from points with a gap stays below one in each equation and at each bound. -/
structure IsResolved (model : Model Rat m k) (tol gap : Rat) : Prop where
  equations : ∀ i, gap + tol * ∑ j, |model.matrix.entry i j| < 1
  bounds : gap + tol < 1

/-- A point passes the tests of a model up to a gap. -/
def passes (model : Model Rat m k) (gap : Rat) (values : Array Rat) : Bool :=
  (model.residual? values).toOption.any (fun r => decide (r ≤ gap)) && model.inBounds values gap

/-- The reply gives no point, or one that passes the tests of the model up to a gap. -/
def IsAccurate (model : Model Rat m k) (gap : Rat) (reply : Reply Rat) : Prop :=
  match reply.answer with
  | .ok (.optimal _ values) => model.passes gap values = true
  | _ => True

instance (model : Model Rat m k) (gap : Rat) :
    (reply : Reply Rat) → Decidable (model.IsAccurate gap reply)
  | ⟨.ok (.optimal _ values), _⟩ => inferInstanceAs (Decidable (model.passes gap values = true))
  | ⟨.ok .infeasible, _⟩ => isTrue trivial
  | ⟨.error _, _⟩ => isTrue trivial

/-- What passing the tests means for a point with a value for every variable. -/
lemma passes_iff : model.passes gap x.toArray = true ↔
    model.matrix.residual x model.target ≤ gap ∧
    ∀ j, (model.bounds.get j).contains (x.get j) gap = true := by
  unfold passes
  rw [residual?_toArray, Bool.and_eq_true, inBounds_iff]
  simp [Except.toOption]

/-- The integer variables of a rounded point are whole. -/
lemma integral_rounded (model : Model Rat m k) (x : Vector Rat k) :
    model.Integral (Vectors.rounded x model.integers) := by
  intro i hi
  exact Vectors.isWhole_rounded x hi

namespace IsInteger

variable (h : model.IsInteger) (near : ∀ i ∈ model.integers, Scalar.fractionality (x.get i) ≤ tol)
include h

/-- All variables of a rounded point are whole. -/
lemma isWhole_rounded (x : Vector Rat k) (j : Fin k) :
    Scalar.IsWhole ((Vectors.rounded x model.integers).get j) :=
  model.integral_rounded x j (h.integers j)

include near

/-- Rounding moves each variable by no more than the tolerance. -/
lemma abs_rounded_sub_le (j : Fin k) :
    |(Vectors.rounded x model.integers).get j - x.get j| ≤ tol := by
  rw [Vectors.get_rounded, if_pos (h.integers j), abs_sub_comm, ← Rational.fractionality_eq]
  exact near j (h.integers j)

/-- If rounding and gap stay below one in each equation, the rounded point solves the equations. -/
lemma solves_rounded (hresidual : model.matrix.residual x model.target ≤ gap)
    (small : ∀ i, gap + tol * ∑ j, |model.matrix.entry i j| < 1) :
    model.matrix.Solves (Vectors.rounded x model.integers) model.target := by
  intro i
  apply Rational.eq_of_abs_sub_lt_one
    (Rational.isWhole_sum (h.entry i) (h.isWhole_rounded x)) (h.target i)
  have hgap := (SparseMatrix.residual_le_iff.1 hresidual).2 i
  have hmove : |∑ j, model.matrix.entry i j * (Vectors.rounded x model.integers).get j -
      ∑ j, model.matrix.entry i j * x.get j| ≤ tol * ∑ j, |model.matrix.entry i j| := by
    rw [← Finset.sum_sub_distrib, Finset.mul_sum]
    apply (Finset.abs_sum_le_sum_abs _ _).trans
    apply Finset.sum_le_sum
    intro j _
    rw [← mul_sub, abs_mul, mul_comm tol]
    exact mul_le_mul_of_nonneg_left (h.abs_rounded_sub_le near j) (abs_nonneg _)
  calc |∑ j, model.matrix.entry i j * (Vectors.rounded x model.integers).get j
          - model.target.get i|
      ≤ _ + |∑ j, model.matrix.entry i j * x.get j - model.target.get i| := abs_sub_le _ _ _
    _ ≤ tol * ∑ j, |model.matrix.entry i j| + gap := add_le_add hmove hgap
    _ < 1 := by
      rw [add_comm]
      exact small i

/-- If rounding and gap stay below one, the rounded point lies in the box. -/
lemma holds_rounded (hbounds : ∀ j, (model.bounds.get j).contains (x.get j) gap = true)
    (small : gap + tol < 1) : model.box.Holds (Vectors.rounded x model.integers) := by
  rw [holds_box_iff]
  intro j
  obtain ⟨hdown, hup⟩ := abs_le.1 (h.abs_rounded_sub_le near j)
  have hcontains := hbounds j
  unfold Interval.contains at hcontains
  rw [Bool.and_eq_true, decide_eq_true_eq, Option.all_eq_true] at hcontains
  obtain ⟨hlower, hupper⟩ := hcontains
  constructor
  · apply Rational.le_of_sub_lt_one (h.lower j) (h.isWhole_rounded x j)
    linarith
  · intro u hu
    have hle := of_decide_eq_true (hupper u hu)
    apply Rational.le_of_sub_lt_one (h.isWhole_rounded x j) (h.upper j u hu)
    linarith

end IsInteger

/-- Whatever a search returns is integral. -/
lemma isIntegral_of_proposes {settings : Settings Rat} {visit : Visit Rat} {best : Candidate Rat}
    (h : model.Proposes settings visit best) : model.isIntegral best.x 0 = .ok true := by
  obtain ⟨box, reply, objective, x, -, -, -, -, rfl⟩ := h
  exact isIntegral_zero (model.integral_rounded x)

/-- A candidate of a whole-number model from an accurate reply is an integer point of the box with its
cost. -/
lemma IsInteger.feasible_of_proposes {settings : Settings Rat} {visit : Visit Rat}
    {best : Candidate Rat} (h : model.IsInteger) (proposes : model.Proposes settings visit best)
    (resolved : model.IsResolved settings.integralityTol gap)
    (accurate : ∀ asked ∈ visit.asked, model.IsAccurate gap asked.2) :
    ∃ z : Vector Rat k, best = ⟨Vectors.inner model.cost z, z.toArray⟩ ∧ model.box.Holds z ∧
      model.IntegerFeasible z := by
  obtain ⟨box, reply, objective, x, hasked, -, answered, near, rfl⟩ := proposes
  have hpasses : model.IsAccurate gap reply := accurate (box, reply) hasked
  unfold IsAccurate at hpasses
  rw [answered] at hpasses
  obtain ⟨hresidual, hbounds⟩ := passes_iff.1 hpasses
  exact ⟨Vectors.rounded x model.integers, rfl, h.holds_rounded near hbounds resolved.bounds,
    h.solves_rounded near hresidual resolved.equations, model.integral_rounded x⟩

end Model

/-! ## Encoded problems -/

namespace Encoding

variable {a : SparseMatrix Rat m n} {A : Fin m → Fin n → ℤ} {y : Fin m → ℤ}

/-- The direct model of an integer problem is whole. -/
lemma IsDirect.isInteger {model : Model Rat m n} (pure : IsDirect model a y)
    (hA : ∀ i j, a.entry i j = A i j) : model.IsInteger := by
  have hbounds : ∀ j, model.bounds.get j = .nonneg :=
    fun j => Vectors.get_of_toArray pure.box (by simp)
  refine ⟨?_, ?_, ?_, ?_, pure.integers⟩
  · intro i j
    rw [pure.matrix, hA]
    exact Rational.isWhole_iff.2 ⟨_, rfl⟩
  · intro i
    rw [IsDirect.get_target pure]
    exact Rational.isWhole_iff.2 ⟨_, rfl⟩
  · intro j
    rw [hbounds]
    exact Rational.isWhole_natCast 0
  · intro j u hu
    rw [hbounds] at hu
    cases hu

/-- The parity model of an integer problem is whole. -/
lemma IsParity.isInteger {model : Model Rat m (n + m)} (pure : IsParity model a y)
    (hA : ∀ i j, a.entry i j = A i j) : model.IsInteger := by
  have hunit : ∀ j : Fin n, model.bounds.get (j.castAdd m) = .unit :=
    fun j => Vectors.get_of_toArray pure.box (by simp [Array.getElem?_append])
  have hsurplus : ∀ i : Fin m, model.bounds.get (i.natAdd n) = .nonneg :=
    fun i => Vectors.get_of_toArray pure.box (by simp)
  refine ⟨?_, ?_, ?_, ?_, pure.integers⟩
  · intro i
    rw [pure.matrix, Fin.forall_fin_add]
    constructor
    · intro j
      rw [SparseMatrix.entry_beside_left, hA]
      exact Rational.isWhole_iff.2 ⟨_, rfl⟩
    · intro j
      rw [SparseMatrix.entry_beside_right, SparseMatrix.entry_diagonal, Vectors.get_replicate]
      split
      · exact Rational.isWhole_iff.2 ⟨-2, by norm_num⟩
      · exact Rational.isWhole_natCast 0
  · intro i
    rw [IsParity.get_target pure]
    exact Rational.isWhole_iff.2 ⟨_, rfl⟩
  · rw [Fin.forall_fin_add]
    constructor
    · intro j
      rw [hunit]
      exact Rational.isWhole_natCast 0
    · intro i
      rw [hsurplus]
      exact Rational.isWhole_natCast 0
  · rw [Fin.forall_fin_add]
    constructor
    · intro j u hu
      rw [hunit] at hu
      cases hu
      exact Rational.isWhole_natCast 1
    · intro i u hu
      rw [hsurplus] at hu
      cases hu

/-- An encoded integer problem is whole, and its integer points stand for selections that reach the target,
whether or not the encoding is meant for it. -/
lemma selects_of_encode {encoding : Encoding} {model : Model Rat m (encoding.vars m n)}
    (hA : ∀ i j, a.entry i j = A i j) (encoded : encoding.encode a (scalars y) = .ok model) :
    model.IsInteger ∧ ∀ z, model.box.Holds z → model.IntegerFeasible z →
      ∃ x, encoding.Selects A y x ∧ Vectors.inner model.cost z = (∑ j, x j : ℕ) := by
  unfold encode at encoded
  split at encoded
  · cases encoded
  · cases encoding with
    | direct =>
      obtain ⟨model', hmodel, pure⟩ := exists_direct a y
      simp only [hmodel] at encoded
      cases encoded
      exact ⟨pure.isInteger hA, (pure.encodes hA).selection⟩
    | parity =>
      obtain ⟨model', hmodel, pure⟩ := exists_parity a y
      simp only [hmodel] at encoded
      cases encoded
      refine ⟨pure.isInteger hA, ?_⟩
      intro z hz hfeasible
      obtain ⟨x, ⟨hbinary, hrows⟩, hcost⟩ := (pure.encodes hA).selection z hz hfeasible
      refine ⟨x, ⟨hbinary, ?_⟩, hcost⟩
      intro i
      obtain ⟨surplus, hrow⟩ := hrows i
      exact Int.modEq_iff_dvd.2 ⟨-surplus, by rw [hrow]; ring⟩

end Encoding

namespace Machine

/-- What a search returns for an encoded integer problem. The point is always integral. If the relaxed points
pass the tests of the model up to a gap that, together with the integrality tolerance times the
coefficients, stays below one, then the point solves the equations and lies in the box without any
tolerance, and a reported number counts the columns of a selection that reaches the target. -/
theorem optimum_sound (machine : Machine Rat) (encoding : Encoding) (settings : Settings Rat)
    (clock : Nat → Nat) {A : Fin machine.rows → Fin machine.cols → ℤ} {y : Fin machine.rows → ℤ}
    {model : Model Rat machine.rows (encoding.vars machine.rows machine.cols)}
    (hA : ∀ i j, machine.matrix.entry i j = A i j) (hy : machine.target = Encoding.scalars y)
    (encoded : encoding.encode machine.matrix machine.target = .ok model) :
    (∀ solution, (model.search settings clock).solution = .ok solution →
      ∀ best ∈ solution.best, model.isIntegral best.x 0 = .ok true) ∧
    ∀ gap, model.IsResolved settings.integralityTol gap →
      (∀ visit ∈ (model.search settings clock).visits, ∀ asked ∈ visit.asked,
        model.IsAccurate gap asked.2) →
      (∀ solution, (model.search settings clock).solution = .ok solution →
        ∀ best ∈ solution.best, model.residual? best.x = .ok 0 ∧
          model.inBounds best.x 0 = true ∧ model.isIntegral best.x 0 = .ok true) ∧
      (settings.noSolution = .error → ∀ v, (machine.optimum encoding settings clock).result = .ok v →
        ∃ x, encoding.Selects A y x ∧ (∑ j, x j < 2 ^ 63 → v = (∑ j, x j : ℕ))) := by
  have hproposed : ∀ solution, (model.search settings clock).solution = .ok solution →
      ∀ best ∈ solution.best, ∃ visit ∈ (model.search settings clock).visits,
        model.Proposes settings visit best := by
    intro solution returned best hbest
    obtain ⟨last, done, reached, hvisits, hsolution, -⟩ := Model.reaches_of_solution returned
    rw [hsolution] at hbest
    obtain ⟨visit, hvisit, hproposes⟩ := reached.proposed best hbest
    exact ⟨visit, hvisits ▸ List.mem_reverse.2 hvisit, hproposes⟩
  rw [hy] at encoded
  obtain ⟨hinteger, hselects⟩ := Encoding.selects_of_encode hA encoded
  constructor
  · intro solution returned best hbest
    obtain ⟨visit, -, hproposes⟩ := hproposed solution returned best hbest
    exact Model.isIntegral_of_proposes hproposes
  · intro gap resolved accurate
    have hfeasible : ∀ solution, (model.search settings clock).solution = .ok solution →
        ∀ best ∈ solution.best, ∃ z, best = ⟨Vectors.inner model.cost z, z.toArray⟩ ∧
          model.box.Holds z ∧ model.IntegerFeasible z := by
      intro solution returned best hbest
      obtain ⟨visit, hvisit, hproposes⟩ := hproposed solution returned best hbest
      exact hinteger.feasible_of_proposes hproposes resolved (accurate visit hvisit)
    constructor
    · intro solution returned best hbest
      obtain ⟨z, rfl, hz, hinteger⟩ := hfeasible solution returned best hbest
      refine ⟨?_, Model.inBounds_zero.2 hz, Model.isIntegral_zero hinteger.integral⟩
      rw [Model.residual?_toArray, SparseMatrix.residual_eq_zero_iff.2 hinteger.solves]
    · intro hpolicy v hv
      have hresult : (machine.optimum encoding settings clock).result =
          (model.search settings clock).solution.bind (·.report .error) := by
        unfold optimum
        rw [hy, encoded, ← hpolicy]
      rw [hresult] at hv
      obtain ⟨solution, returned, hreport⟩ := Fault.bind_ok hv
      obtain ⟨-, best, hbest, rfl⟩ := Solution.report_ok hreport
      obtain ⟨z, rfl, hz, hinteger⟩ := hfeasible solution returned best hbest
      obtain ⟨x, hx, hcost⟩ := hselects z hz hinteger
      refine ⟨x, hx, ?_⟩
      intro hrange
      rw [hcost]
      exact Rational.toWhole_natCast hrange

/-- Columns of two and three reach seven under the standard tolerances: the relaxed points are accurate, so
returned points solve the equations, and the three columns reported are those of a selection. -/
theorem optimum_sound_coins : ∃ model,
    Encoding.direct.encode coins.matrix coins.target = .ok model ∧
    (∀ solution, (model.search .standard id).solution = .ok solution → ∀ best ∈ solution.best,
      model.residual? best.x = .ok 0 ∧ model.inBounds best.x 0 = true ∧
        model.isIntegral best.x 0 = .ok true) ∧
    (coins.optimum .direct .standard id).result = .ok 3 ∧
    ∃ x : Fin 2 → ℕ, Encoding.direct.Selects (fun _ : Fin 1 => ![2, 3]) (fun _ => 7) x ∧
      (∑ j, x j < 2 ^ 63 → (3 : ℤ) = (∑ j, x j : ℕ)) := by
  have hthree : (coins.optimum .direct .standard id).result = .ok 3 := by decide +kernel
  have hrun : ∀ model ∈ (Encoding.direct.encode coins.matrix coins.target).toOption,
      (∀ i, 0 + (Settings.standard : Settings Rat).integralityTol *
        ∑ j, |model.matrix.entry i j| < 1) ∧
      ∀ visit ∈ (model.search .standard id).visits, ∀ asked ∈ visit.asked,
        model.IsAccurate 0 asked.2 := by
    decide +kernel
  cases encoded : Encoding.direct.encode coins.matrix coins.target with
  | error error =>
    unfold optimum at hthree
    rw [encoded] at hthree
    cases hthree
  | ok model =>
    obtain ⟨small, accurate⟩ := hrun model (by rw [encoded]; rfl)
    obtain ⟨hpoints, hreport⟩ := (optimum_sound coins .direct .standard id (A := fun _ => ![2, 3])
      (y := fun _ => 7) (by decide +kernel) (by decide +kernel) encoded).2 0
      ⟨small, by decide +kernel⟩ accurate
    exact ⟨model, rfl, hpoints, hthree, hreport rfl 3 hthree⟩

/-- One column that contributes a million, and one more than a million to reach. -/
def coarse : Machine Rat where
  rows := 1
  cols := 1
  matrix := .ofRows #v[#v[1000000]]
  target := #[1000001]

/-- With large coefficients a returned point may miss the equations: under the standard settings one column
is reported, its residual is one, and no selection reaches the target. -/
theorem optimum_coarse : (coarse.optimum .direct .standard id).result = .ok 1 ∧
    (∃ model ∈ (Encoding.direct.encode coarse.matrix coarse.target).toOption,
      ∃ solution ∈ (model.search .standard id).solution.toOption, ∃ best ∈ solution.best,
        model.residual? best.x = .ok 1) ∧
    ∀ x : Fin 1 → ℕ, ¬ Encoding.direct.Selects (fun (_ : Fin 1) (_ : Fin 1) => 1000000)
      (fun _ => 1000001) x := by
  refine ⟨by decide +kernel, by decide +kernel, ?_⟩
  intro x hx
  have hrow : ∑ j : Fin 1, (1000000 : ℤ) * x j = 1000001 := hx 0
  rw [Fin.sum_univ_one] at hrow
  omega

end Machine

end IntegerProgram
