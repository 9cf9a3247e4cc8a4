import Mathlib
import IntegerProgram.Model.Candidate
import IntegerProgram.Proofs.BranchBound.Selection
import IntegerProgram.Proofs.Exact

/-!
# Rounded candidates

A candidate is its point with the listed variables rounded one after the other
(`Candidate.ofPoint_toArray`). Over exact scalars each goes to the nearest integer, of two the one farther from
zero (`Rational.isNearest_round`), and it does not matter in which order and how often they are listed
(`Candidate.ofPoint_eq`). Rounding changes the cost by no more than the cost of the distances to the whole
numbers (`Vectors.abs_inner_rounded_sub_le`), and it leaves whole values alone (`Vectors.rounded_of_isWhole`).
-/

namespace IntegerProgram

variable {α : Type} {n : Nat}

namespace Rational

/-- An integer that is nearest to a value; of two that are equally near it is the one farther from zero. -/
structure IsNearest (v : Rat) (k : ℤ) : Prop where
  nearest : ∀ z : ℤ, |v - k| ≤ |v - z|
  away : ∀ z : ℤ, |v - z| = |v - k| → |z| ≤ |k|

lemma round_between (v : Rat) : ∃ k : ℤ, Scalar.round v = k ∧
    (0 ≤ v ∧ k - 1 / 2 ≤ v ∧ v < k + 1 / 2 ∨ v < 0 ∧ k - 1 / 2 < v ∧ v ≤ k + 1 / 2) := by
  rw [round_eq]
  split
  · rename_i hv
    have hle := Int.floor_le (v + 1 / 2)
    have hlt := Int.lt_floor_add_one (v + 1 / 2)
    exact ⟨_, rfl, .inl ⟨hv, by linarith, by linarith⟩⟩
  · rename_i hv
    have hle := Int.le_ceil (v - 1 / 2)
    have hlt := Int.ceil_lt_add_one (v - 1 / 2)
    exact ⟨_, rfl, .inr ⟨not_le.1 hv, by linarith, by linarith⟩⟩

lemma sub_add_one_le_abs {v : Rat} {z k : ℤ} (h : z < k) : v - k + 1 ≤ |v - z| := by
  have hnext : (z : Rat) + 1 ≤ k := by
    exact_mod_cast h
  linarith [le_abs_self (v - z)]

lemma add_one_sub_le_abs {v : Rat} {z k : ℤ} (h : k < z) : k + 1 - v ≤ |v - z| := by
  have hnext : (k : Rat) + 1 ≤ z := by
    exact_mod_cast h
  linarith [neg_le_abs (v - z)]

/-- Rounding leads to the nearest integer. -/
lemma isNearest_round (v : Rat) : ∃ k : ℤ, Scalar.round v = k ∧ IsNearest v k := by
  obtain ⟨k, hk, hv⟩ := round_between v
  have hclose : |v - k| ≤ 1 / 2 := by
    rcases hv with ⟨-, hle, hlt⟩ | ⟨-, hlt, hle⟩
    · exact abs_le.2 ⟨by linarith, by linarith⟩
    · exact abs_le.2 ⟨by linarith, by linarith⟩
  refine ⟨k, hk, ?_, ?_⟩
  · intro z
    obtain ⟨hlow, hhigh⟩ := abs_le.1 hclose
    rcases lt_trichotomy z k with hz | rfl | hz
    · linarith [sub_add_one_le_abs (v := v) hz]
    · exact le_rfl
    · linarith [add_one_sub_le_abs (v := v) hz]
  · -- Only a neighbour on the side of zero can be equally near, and zero is not passed.
    intro z hequal
    have hz : |v - z| ≤ 1 / 2 := hequal.trans_le hclose
    rcases lt_trichotomy z k with hlt | rfl | hlt
    · rcases hv with ⟨hv, hle, -⟩ | ⟨-, hv, -⟩
      · have hnonneg : (-1 : Rat) < z := by
          linarith [le_abs_self (v - z)]
        have hnonneg : -1 < z := by
          exact_mod_cast hnonneg
        exact abs_le_abs_of_nonneg hnonneg hlt.le
      · linarith [sub_add_one_le_abs (v := v) hlt]
    · exact le_rfl
    · rcases hv with ⟨-, -, hv⟩ | ⟨hv, -, hle⟩
      · linarith [add_one_sub_le_abs (v := v) hlt]
      · have hnonpos : (z : Rat) < 1 := by
          linarith [neg_le_abs (v - z)]
        have hnonpos : z < 1 := by
          exact_mod_cast hnonpos
        exact abs_le_abs_of_nonpos (Int.lt_add_one_iff.1 hnonpos) hlt.le

end Rational

/-- Every entry of a vector can be replaced. -/
lemma Fault.modify_toArray (f : α → α) (x : Vector α n) (i : Fin n) :
    Fault.modify f x.toArray i.val = .ok (Vectors.replaceAt x i (f (x.get i))).toArray := by
  unfold Fault.modify
  rw [dif_pos (by simp)]
  rfl

namespace Vectors

section Scalars

variable [Scalar α]

/-- The point with the listed variables rounded one after the other. -/
def wholeAt (x : Vector α n) (indices : List (Fin n)) : Vector α n :=
  indices.foldl (fun x i => replaceAt x i (Candidate.wholeNumber (x.get i))) x

/-- Each variable is rounded if it is listed, when none is listed twice. -/
lemma get_wholeAt (x : Vector α n) {indices : List (Fin n)} (distinct : indices.Nodup) (j : Fin n) :
    (wholeAt x indices).get j = if j ∈ indices then Candidate.wholeNumber (x.get j) else x.get j := by
  induction indices generalizing x with
  | nil => simp [wholeAt]
  | cons i rest ih =>
    obtain ⟨hi, hrest⟩ := List.nodup_cons.1 distinct
    show (wholeAt (replaceAt x i (Candidate.wholeNumber (x.get i))) rest).get j = _
    rw [ih _ hrest, get_replaceAt]
    by_cases hij : i = j
    · subst hij
      simp [hi]
    · rw [if_neg hij]
      simp [Ne.symm hij]

end Scalars

/-- The point with the listed variables rounded. -/
def rounded (x : Vector Rat n) (indices : List (Fin n)) : Vector Rat n :=
  Vector.ofFn fun j => if j ∈ indices then Scalar.round (x.get j) else x.get j

/-- The entries of a rounded point. -/
lemma get_rounded (x : Vector Rat n) (indices : List (Fin n)) (j : Fin n) :
    (rounded x indices).get j = if j ∈ indices then Scalar.round (x.get j) else x.get j :=
  get_ofFn _ j

/-- The listed variables of a rounded point are whole. -/
lemma isWhole_rounded (x : Vector Rat n) {indices : List (Fin n)} {j : Fin n} (hj : j ∈ indices) :
    Scalar.IsWhole ((rounded x indices).get j) := by
  rw [get_rounded, if_pos hj]
  exact Rational.isWhole_iff.2 (Rational.exists_round_eq _)

/-- Rounding at one variable first changes nothing. -/
lemma rounded_replaceAt (x : Vector Rat n) (i : Fin n) (rest : List (Fin n)) :
    rounded (replaceAt x i (Scalar.round (x.get i))) rest = rounded x (i :: rest) := by
  apply ext_get
  intro j
  rw [get_rounded, get_rounded, get_replaceAt]
  by_cases hij : i = j
  · subst hij
    simp [Rational.round_round]
  · rw [if_neg hij]
    simp [Ne.symm hij]

/-- Whole values are left alone. -/
lemma rounded_of_isWhole {x : Vector Rat n} {indices : List (Fin n)}
    (h : ∀ i ∈ indices, Scalar.IsWhole (x.get i)) : rounded x indices = x := by
  apply ext_get
  intro j
  rw [get_rounded]
  split
  · rename_i hj
    exact Rational.round_of_isWhole (h j hj)
  · rfl

lemma rounded_congr {x : Vector Rat n} {indices indices' : List (Fin n)}
    (h : ∀ j, j ∈ indices' ↔ j ∈ indices) : rounded x indices' = rounded x indices := by
  apply ext_get
  intro j
  rw [get_rounded, get_rounded]
  simp only [h]

/-- Exact numbers may be rounded one after the other. -/
lemma wholeAt_eq_rounded (x : Vector Rat n) (indices : List (Fin n)) :
    wholeAt x indices = rounded x indices := by
  induction indices generalizing x with
  | nil => exact (rounded_of_isWhole (by simp)).symm
  | cons i rest ih =>
    have hwhole : Candidate.wholeNumber (x.get i) = Scalar.round (x.get i) := add_zero _
    show wholeAt (replaceAt x i (Candidate.wholeNumber (x.get i))) rest = _
    rw [hwhole, ih, rounded_replaceAt]

/-- Rounding changes the cost by no more than the cost of the distances to the whole numbers. -/
lemma abs_inner_rounded_sub_le (c x : Vector Rat n) (indices : List (Fin n)) :
    |inner c (rounded x indices) - inner c x| ≤
      ∑ i ∈ indices.toFinset, |c.get i| * Scalar.fractionality (x.get i) := by
  have hterm : ∀ j : Fin n, |c.get j * (rounded x indices).get j - c.get j * x.get j| =
      if j ∈ indices then |c.get j| * Scalar.fractionality (x.get j) else 0 := by
    intro j
    rw [get_rounded]
    split
    · rw [← mul_sub, abs_mul, Rational.fractionality_eq, abs_sub_comm]
    · rw [sub_self, abs_zero]
  calc |inner c (rounded x indices) - inner c x|
      = |∑ j, (c.get j * (rounded x indices).get j - c.get j * x.get j)| := by
        rw [inner, inner, Finset.sum_sub_distrib]
    _ ≤ ∑ j, |c.get j * (rounded x indices).get j - c.get j * x.get j| :=
        Finset.abs_sum_le_sum_abs _ _
    _ = ∑ j, if j ∈ indices then |c.get j| * Scalar.fractionality (x.get j) else 0 :=
        Finset.sum_congr rfl fun j _ => hterm j
    _ = ∑ i ∈ indices.toFinset, |c.get i| * Scalar.fractionality (x.get i) := by
        rw [← Finset.sum_filter]
        congr 1
        ext j
        simp

/-- Rounding values near the whole numbers changes the cost by no more than the tolerance times the costs. -/
lemma abs_inner_rounded_sub_le_of_near {c x : Vector Rat n} {indices : List (Fin n)} {tol : Rat}
    (h : ∀ j ∈ indices, Scalar.fractionality (x.get j) ≤ tol) :
    |inner c (rounded x indices) - inner c x| ≤ tol * ∑ j ∈ indices.toFinset, |c.get j| := by
  refine (abs_inner_rounded_sub_le c x indices).trans ?_
  rw [Finset.mul_sum]
  apply Finset.sum_le_sum
  intro j hj
  rw [mul_comm tol]
  exact mul_le_mul_of_nonneg_left (h j (List.mem_toFinset.1 hj)) (abs_nonneg _)

end Vectors

namespace Candidate

/-- Rounding a point with a value for every variable succeeds. -/
lemma roundAt_toArray [Scalar α] (x : Vector α n) (indices : List (Fin n)) :
    roundAt x.toArray (indices.map (·.val)) = .ok (Vectors.wholeAt x indices).toArray := by
  unfold roundAt
  induction indices generalizing x with
  | nil => rfl
  | cons i rest ih =>
    rw [List.map_cons, List.foldlM_cons, Fault.modify_toArray]
    exact ih _

/-- The candidate of a point is the rounded point with its cost. -/
lemma ofPoint_toArray [Scalar α] (x cost : Vector α n) (indices : List (Fin n)) :
    ofPoint x.toArray (indices.map (·.val)) cost.toArray =
      .ok ⟨Scalar.dot cost.toList (Vectors.wholeAt x indices).toList,
        (Vectors.wholeAt x indices).toArray⟩ := by
  unfold ofPoint
  rw [if_neg (by simp), roundAt_toArray]
  rfl

lemma ofPoint_eq (x : Vector Rat n) (indices : List (Fin n)) (cost : Vector Rat n) :
    ofPoint x.toArray (indices.map (·.val)) cost.toArray =
      .ok ⟨Vectors.inner cost (Vectors.rounded x indices),
        (Vectors.rounded x indices).toArray⟩ := by
  rw [ofPoint_toArray, Vectors.wholeAt_eq_rounded, Vectors.dot_toList]

/-- The candidate of a point has the listed variables at the nearest integers and the others as they were, with
the cost of that point. It depends on the listed variables as a set and is its own candidate, and its cost differs
from that of the point by no more than rounding can change; so if a branching rule finds nothing to split, by no
more than the tolerance times the costs of the listed variables. -/
theorem ofPoint_rounds (x cost : Vector Rat n) (indices : List (Fin n)) :
    ∃ (r : Vector Rat n) (c : Candidate Rat), c.x = r.toArray ∧ c.objective = Vectors.inner cost r ∧
      ofPoint x.toArray (indices.map (·.val)) cost.toArray = .ok c ∧
      (∀ j ∉ indices, r.get j = x.get j) ∧
      (∀ j ∈ indices, ∃ k : ℤ, r.get j = k ∧ Rational.IsNearest (x.get j) k) ∧
      (∀ indices' : List (Fin n), (∀ j, j ∈ indices' ↔ j ∈ indices) →
        ofPoint x.toArray (indices'.map (·.val)) cost.toArray = .ok c) ∧
      ofPoint c.x (indices.map (·.val)) cost.toArray = .ok c ∧
      |c.objective - Vectors.inner cost x| ≤
        ∑ j ∈ indices.toFinset, |cost.get j| * Scalar.fractionality (x.get j) ∧
      (∀ tol, (∀ j ∈ indices, Scalar.fractionality (x.get j) ≤ tol) →
        |c.objective - Vectors.inner cost x| ≤ tol * ∑ j ∈ indices.toFinset, |cost.get j|) ∧
      ∀ {m : Nat} (model : Model Rat m n) (rule : BranchingRule) (tol : Rat), model.integers = indices →
        model.cost = cost → rule.select model x.toArray tol = .ok none →
          |c.objective - Vectors.inner cost x| ≤ tol * ∑ j ∈ indices.toFinset, |cost.get j| := by
  refine ⟨Vectors.rounded x indices, _, rfl, rfl, ofPoint_eq x indices cost, ?_, ?_, ?_, ?_,
    Vectors.abs_inner_rounded_sub_le cost x indices, ?_, ?_⟩
  · intro j hj
    rw [Vectors.get_rounded, if_neg hj]
  · intro j hj
    rw [Vectors.get_rounded, if_pos hj]
    exact Rational.isNearest_round _
  · intro indices' hsame
    rw [ofPoint_eq, Vectors.rounded_congr hsame]
  · have hagain : Vectors.rounded (Vectors.rounded x indices) indices = Vectors.rounded x indices :=
      Vectors.rounded_of_isWhole fun j hj => Vectors.isWhole_rounded x hj
    rw [ofPoint_eq, hagain]
  · intro tol hnear
    exact Vectors.abs_inner_rounded_sub_le_of_near hnear
  · rintro m model rule tol rfl - hnone
    apply Vectors.abs_inner_rounded_sub_le_of_near
    intro j hj
    exact not_lt.1 (BranchingRule.select_none hnone j hj)

/-- Two integer variables and one that is not, with costs of either sign. -/
def halves : Model Rat 1 3 where
  matrix := .ofRows #v[#v[0, 2, 3]]
  target := #v[0]
  cost := #v[1, -2, 3]
  bounds := Vector.replicate 3 (.between (-4) 4)
  integers := [0, 1]
  ascending := by decide

/-- Halves of either sign are rounded away from zero, which costs as much as a tolerance of one half allows. -/
theorem ofPoint_rounds_halves :
    let x : Vector Rat 3 := #v[5 / 2, -1 / 2, 1 / 3]
    let again : List (Fin 3) := [1, 0, 1]
    (∀ j, j ∈ again ↔ j ∈ halves.integers) ∧
    BranchingRule.firstFractional.select halves x.toArray (1 / 2) = .ok none ∧
    (∀ j ∈ halves.integers, Scalar.fractionality (x.get j) ≤ 1 / 2) ∧
    ofPoint x.toArray (again.map (·.val)) halves.cost.toArray = .ok ⟨6, #[3, -1, 1 / 3]⟩ ∧
    |6 - Vectors.inner halves.cost x| ≤ 1 / 2 * ∑ j ∈ halves.integers.toFinset, |halves.cost.get j| := by
  intro x again
  have hsame : ∀ j, j ∈ again ↔ j ∈ halves.integers := by
    decide
  have hnone : BranchingRule.firstFractional.select halves x.toArray (1 / 2) = .ok none := by
    decide +kernel
  have hnear : ∀ j ∈ halves.integers, Scalar.fractionality (x.get j) ≤ 1 / 2 := by
    decide +kernel
  have hcandidate : ofPoint x.toArray (halves.integers.map (·.val)) halves.cost.toArray =
      .ok ⟨6, #[3, -1, 1 / 3]⟩ := by
    decide +kernel
  obtain ⟨r, c, -, -, hc, -, -, hset, -, -, -, hmodel⟩ := ofPoint_rounds x halves.cost halves.integers
  obtain rfl : c = ⟨6, #[3, -1, 1 / 3]⟩ := Except.ok.inj (hc.symm.trans hcandidate)
  exact ⟨hsame, hnone, hnear, hset again hsame, hmodel halves .firstFractional (1 / 2) rfl rfl hnone⟩

end Candidate

end IntegerProgram
