import Mathlib
import IntegerProgram.Proofs.Binary64.NonFinite
import IntegerProgram.Proofs.BranchBound.Incumbent

/-!
# Integrality of rounded incumbents

The points that a search over binary64 numbers returns, whatever its oracle answers. The branching rule lets a
value pass unless its distance to the whole numbers is above the tolerance. The distance of a value that is not
finite is undefined, so such a value passes although it is not integral:

* `Vectors.kind_wholeAt`, `Vectors.isWhole_wholeAt`: rounding makes finite values whole and keeps the kinds of the
  others.
* `Model.takes_of_isLow`: the objective of an incumbent is below some number, which only whole values and infinite
  ones on the side of a falling cost allow.
* `Model.searchWith_wholeOrAway`: so each integer variable of a returned point is whole or runs away, and if one runs
  away the objective is the negative infinity.
* `Model.search_away`: the simplex method leads to such a point.
-/

namespace IntegerProgram

variable {σ : Type} {m n : Nat}

section Points

variable (x : Vector Float n) {indices : List (Fin n)} (distinct : indices.Nodup)
include distinct

/-- Rounding a point makes the listed values whole, as far as they are finite. -/
lemma Vectors.isWhole_wholeAt {j : Fin n} (hj : j ∈ indices) (hx : Scalar.nonFinite? (x.get j) = none) :
    Scalar.IsWhole ((wholeAt x indices).get j) := by
  rw [get_wholeAt x distinct, if_pos hj]
  exact Binary64.isWhole_wholeNumber hx

/-- Rounding a point keeps the kinds of its values. -/
lemma Vectors.kind_wholeAt (j : Fin n) :
    Scalar.nonFinite? ((wholeAt x indices).get j) = Scalar.nonFinite? (x.get j) := by
  rw [get_wholeAt x distinct]
  split
  · by_cases hx : Scalar.nonFinite? (x.get j) = none
    · rw [hx]
      exact Binary64.nonFinite?_of_isWhole (Binary64.isWhole_wholeNumber hx)
    · exact Binary64.nonFinite?_wholeNumber hx
  · rfl

end Points

/-- What lies below a limit, or below all numbers without one, is low. -/
lemma Binary64.isLow_of_isBelow {objective : Float} {limit : Option Float}
    (h : Scalar.isBelow objective limit = true) : IsLow objective := by
  cases limit with
  | none => exact isLow_of_lt (of_decide_eq_true h)
  | some l => exact isLow_of_lt (of_decide_eq_true h)

namespace Model

variable {model : Model Float m n} {settings : Settings Float} {clock : Nat → Nat} {oracle : Oracle σ Float}
  {initial : σ}

/-- The point `p` passes the branching rule and is rounded to `x`, which is kept. Only the values of `p` that are not
finite fail the tests of integrality, and those of integer variables run away. -/
structure Takes (model : Model Float m n) (tol : Float) (p x : Vector Float n) : Prop where
  /-- Only a value that is not finite is rounded to one. -/
  kind : ∀ i, Scalar.nonFinite? (x.get i) = Scalar.nonFinite? (p.get i)
  whole : ∀ i ∈ model.integers, Scalar.IsWhole (x.get i) ∨ Binary64.RunsAway (model.cost.get i) (x.get i)
  /-- The test with the tolerance of the branching rule, before rounding. -/
  passed : Scalar.isNaN tol = false →
    model.isIntegral p.toArray tol = .ok (model.integers.all fun i => Scalar.isFinite (p.get i))
  /-- The exact test, after rounding. -/
  integral : model.isIntegral x.toArray 0 = .ok (model.integers.all fun i => Scalar.isFinite (p.get i))

lemma nodup_integers {α : Type} (model : Model α m n) : model.integers.Nodup :=
  model.ascending.imp ne_of_lt

lemma Finds.point?_eq {visit : Visit Float} {c : Candidate Float} (h : model.Finds settings visit c) :
    ∃ p : Vector Float n, visit.point? = some p.toArray ∧
      settings.branchingRule.select model p.toArray settings.integralityTol = .ok none ∧
      c = ⟨Scalar.dot model.cost.toList (Vectors.wholeAt p model.integers).toList,
        (Vectors.wholeAt p model.integers).toArray⟩ := by
  obtain ⟨box, reply, objective, p, hasked, -, answered, passed, rounded⟩ := h
  refine ⟨p, ?_, passed, ?_⟩
  · obtain ⟨_, journal⟩ := reply
    cases answered
    unfold Visit.point?
    rw [hasked]
  · unfold integerIndices at rounded
    rw [Candidate.ofPoint_toArray] at rounded
    exact (Except.ok.inj rounded).symm

lemma isIntegral_eq_isFinite {x p : Vector Float n} {tol : Float}
    (h : ∀ i ∈ model.integers, Scalar.fractionality (x.get i) ≤ tol ↔ Scalar.nonFinite? (p.get i) = none) :
    model.isIntegral x.toArray tol = .ok (model.integers.all fun i => Scalar.isFinite (p.get i)) := by
  rw [isIntegral_eq, Except.ok.injEq, Bool.eq_iff_iff, List.all_eq_true, List.all_eq_true]
  apply forall₂_congr
  intro i hi
  rw [decide_eq_true_iff, h i hi, Scalar.isFinite, Option.isNone_iff_eq_none]

/-- A point that passes the branching rule is taken if the cost of the rounded point is low. -/
lemma takes_of_isLow {tol : Float} {p : Vector Float n} {rule : BranchingRule}
    (passed : rule.select model p.toArray tol = .ok none)
    (low : Binary64.IsLow (Scalar.dot model.cost.toList (Vectors.wholeAt p model.integers).toList)) :
    model.Takes tol p (Vectors.wholeAt p model.integers) := by
  have hkind := Vectors.kind_wholeAt p model.nodup_integers
  have hwhole : ∀ i ∈ model.integers, Scalar.nonFinite? (p.get i) = none →
      Scalar.IsWhole ((Vectors.wholeAt p model.integers).get i) :=
    fun i hi => Vectors.isWhole_wholeAt p model.nodup_integers hi
  refine ⟨hkind, ?_, ?_, ?_⟩
  · intro i hi
    by_cases hp : Scalar.nonFinite? (p.get i) = none
    · exact .inl (hwhole i hi hp)
    · rw [← hkind i] at hp
      exact .inr (low.dot i hp).1
  · intro htol
    apply isIntegral_eq_isFinite
    intro i hi
    rw [Binary64.fractionality_le_iff htol]
    exact and_iff_left (BranchingRule.select_none passed i hi)
  · apply isIntegral_eq_isFinite
    intro i hi
    constructor
    · intro h
      rw [← hkind i]
      exact Binary64.nonFinite?_of_isWhole h
    · exact hwhole i hi

/-- Whatever the oracle answers, a returned point is the rounded point of a reply, its integer variables are whole
or run away, and if it is not integral its objective is the negative infinity. -/
theorem searchWith_wholeOrAway {run : SearchRun σ Float} {solution : Solution Float} {best : Candidate Float}
    (searched : model.searchWith settings clock oracle initial = run)
    (returned : run.solution = .ok solution) (found : best ∈ solution.best) :
    ∃ visit ∈ run.visits, ∃ p x : Vector Float n, visit.point? = some p.toArray ∧ best.x = x.toArray ∧
      model.Takes settings.integralityTol p x ∧
      (model.isIntegral best.x 0 = .ok true ∨ Scalar.nonFinite? best.objective = some .negInfinity) := by
  subst searched
  obtain ⟨last, done, reached, hvisits, hsolution, -⟩ := reaches_of_solution returned
  rw [hsolution] at found
  obtain ⟨visit, hvisit, hfinds, himproved⟩ := reached.found best found
  obtain ⟨p, hpoint, hpassed, rfl⟩ := hfinds.point?_eq
  have hlow := Binary64.isLow_of_isBelow himproved
  have htakes := takes_of_isLow hpassed hlow
  rw [hvisits]
  refine ⟨visit, List.mem_reverse.2 hvisit, p, _, hpoint, rfl, htakes, ?_⟩
  by_cases hfinite : ∀ i ∈ model.integers, Scalar.nonFinite? (p.get i) = none
  · left
    rw [htakes.integral, Except.ok.injEq, List.all_eq_true]
    intro i hi
    exact Option.isNone_iff_eq_none.2 (hfinite i hi)
  · right
    push Not at hfinite
    obtain ⟨i, -, hi⟩ := hfinite
    rw [← htakes.kind i] at hi
    exact (hlow.dot i hi).2

/-- Two points between whole numbers, a whole one, and the negative infinity. -/
def fallingAnswers : List (Relaxation Float) :=
  [.optimal 0.5 #[0.5], .optimal 1.5 #[1.5], .optimal 2 #[2], .optimal 1 #[-Binary64.infinity]]

/-- A search that has the two as its incumbent when its oracle answers the negative infinity, which replaces it and
is not integral. -/
theorem searchWith_wholeOrAway_falling :
    (fromHalf.searchWith .standard id .replaying fallingAnswers).solution =
      .ok ⟨.optimal, some ⟨-Binary64.infinity, #[-Binary64.infinity]⟩, 5, 2⟩ ∧
    ∃ visit ∈ (fromHalf.searchWith .standard id .replaying fallingAnswers).visits, ∃ p x : Vector Float 1,
      visit.point? = some p.toArray ∧ #[-Binary64.infinity] = x.toArray ∧
      fromHalf.Takes (Settings.standard : Settings Float).integralityTol p x ∧
      fromHalf.isIntegral x.toArray 0 = .ok false := by
  have returned : (fromHalf.searchWith .standard id .replaying fallingAnswers).solution =
      .ok ⟨.optimal, some ⟨-Binary64.infinity, #[-Binary64.infinity]⟩, 5, 2⟩ := by
    decide +kernel
  obtain ⟨visit, hvisit, p, x, hpoint, hx, htakes, -⟩ := searchWith_wholeOrAway rfl returned rfl
  have hx : #[-Binary64.infinity] = x.toArray := hx
  have hfails : fromHalf.isIntegral #[-Binary64.infinity] 0 = .ok false := by decide +kernel
  exact ⟨returned, visit, hvisit, p, x, hpoint, hx, htakes, hx ▸ hfails⟩

/-- Without equations, with a cost of minus one and the positive infinity as an upper bound, the simplex method
answers that bound; the search takes it for a solution, and it is not integral. -/
theorem search_away : ∃ model : Model Float 0 1,
    make (.ofRows #v[]) #[] #[-1] #[.between 0 Binary64.infinity] [0] = .ok model ∧
    (model.search .standard id).solution =
      .ok ⟨.optimal, some ⟨-Binary64.infinity, #[Binary64.infinity]⟩, 1, 1⟩ ∧
    model.isIntegral #[Binary64.infinity] 0 = .ok false :=
  ⟨_, rfl, by decide +kernel, by decide +kernel⟩

end Model

end IntegerProgram
