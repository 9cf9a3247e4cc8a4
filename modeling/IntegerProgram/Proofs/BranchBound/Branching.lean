import Mathlib
import IntegerProgram.Proofs.BranchBound.Partition

/-!
# Which variable is branched on

Over exact scalars the three scans for integer variables off the whole numbers agree, and each rule takes the
variable that it promises (`BranchingRule.Takes`): the first of them, or the first of those that are farthest
from the whole numbers. The scan for the farthest is the library's first maximum (`foldl_farther_eq`).

A decision caps its variable at one integer and raises it to the next, with the value of the variable strictly
between the two (`Decision.exists_split_eq`).
-/

namespace IntegerProgram

variable {m n : Nat}

namespace Decision

variable {v tol : Rat}

/-- A value off the whole numbers lies strictly between two neighbours, and its cuts end at these. -/
lemma exists_split_eq (i : Nat) (htol : 0 ≤ tol) (hoff : tol < Scalar.fractionality v) : ∃ k : ℤ,
    k < v ∧ v < k + 1 ∧ split i v = ⟨i, v, ⟨i, none, some (k : Rat)⟩, ⟨i, some ((k : Rat) + 1), none⟩⟩ ∧
    (∀ w : Rat, (split i v).down.admits w = true ↔ w ≤ k) ∧
    ∀ w : Rat, (split i v).up.admits w = true ↔ k + 1 ≤ w := by
  have hne : ((⌊v⌋ : ℤ) : Rat) ≠ v := fun h => ValuedScalar.value_ne htol hoff _ h.symm
  have hceil : Scalar.ceil v = (⌊v⌋ : Rat) + 1 := by
    rw [Rational.ceil_eq, show ⌈v⌉ = ⌊v⌋ + 1 from ValuedScalar.ceil_value htol hoff, Int.cast_add, Int.cast_one]
  refine ⟨⌊v⌋, lt_of_le_of_ne (Int.floor_le v) hne, Int.lt_floor_add_one v, ?_, ?_, ?_⟩
  · rw [split, Cut.down, Cut.up, Rational.floor_eq, hceil]
  · intro w
    rw [← Rational.floor_eq]
    exact Cut.admits_down (Rational.isNaN_eq w)
  · intro w
    rw [← hceil]
    exact Cut.admits_up

end Decision

namespace Model

variable {model : Model Rat m n} {x : Vector Rat n} {tol : Rat}

lemma mem_fractionals {f : Fractional Rat} : f ∈ model.integers.filterMap (fractionalAt? x tol) ↔
    ∃ i ∈ model.integers, tol < Scalar.fractionality (x.get i) ∧
      ⟨i, x.get i, Scalar.fractionality (x.get i)⟩ = f := by
  simp only [List.mem_filterMap, fractionalAt?, Option.ite_none_right_eq_some, Option.some.injEq]

lemma ascending_fractionals (model : Model Rat m n) :
    (model.integers.filterMap (fractionalAt? x tol)).Pairwise fun f g => f.var < g.var := by
  refine List.Pairwise.filterMap _ ?_ model.ascending
  intro i j hlt f hf g hg
  simp only [fractionalAt?, Option.ite_none_right_eq_some, Option.some.injEq] at hf hg
  obtain ⟨-, rfl⟩ := hf
  obtain ⟨-, rfl⟩ := hg
  exact hlt

lemma isIntegral_iff : model.isIntegral x.toArray tol = .ok true ↔
    ∀ i ∈ model.integers, Scalar.fractionality (x.get i) ≤ tol := by
  rw [isIntegral_eq, Except.ok.injEq, List.all_eq_true]
  simp only [decide_eq_true_eq]

lemma fractionals_eq_nil_iff : model.fractionals x.toArray tol = .ok [] ↔
    ∀ i ∈ model.integers, Scalar.fractionality (x.get i) ≤ tol := by
  rw [fractionals_eq, Except.ok.injEq, List.filterMap_eq_nil_iff]
  simp only [fractionalAt?, ite_eq_right_iff, reduceCtorEq, imp_false, not_lt]

end Model

namespace BranchingRule

/-- The variable that a rule takes: the first integer variable off the whole numbers by more than a tolerance,
or the first of the integer variables that are farthest from them. -/
def Takes (rule : BranchingRule) (model : Model Rat m n) (x : Vector Rat n) (tol : Rat) (i : Fin n) : Prop :=
  match rule with
  | firstFractional => IsLeast {j | j ∈ model.integers ∧ tol < Scalar.fractionality (x.get j)} i
  | mostFractional => IsLeast {j | j ∈ model.integers ∧
      ∀ k ∈ model.integers, Scalar.fractionality (x.get k) ≤ Scalar.fractionality (x.get j)} i

lemma foldl_farther_eq (fs : List (Fractional Rat)) : fs.foldl farther none = fs.argmax (·.distance) := by
  unfold List.argmax
  congr 1
  funext best f
  cases best with
  | none => rfl
  | some b => rfl

variable {model : Model Rat m n} {x : Vector Rat n} {tol : Rat} {d : Decision Rat}

/-- Of two entries of an ascending list the one in front has the smaller variable. -/
lemma var_le_of_idxOf_le {fs : List (Fractional Rat)} (ascending : fs.Pairwise fun f g => f.var < g.var)
    {f g : Fractional Rat} (hf : f ∈ fs) (hg : g ∈ fs) (hle : fs.idxOf f ≤ fs.idxOf g) : f.var ≤ g.var := by
  rcases hle.eq_or_lt with heq | hlt
  · rw [(List.idxOf_inj hf).1 heq]
  · have h := List.pairwise_iff_getElem.1 ascending _ _ (List.idxOf_lt_length_of_mem hf)
      (List.idxOf_lt_length_of_mem hg) hlt
    rw [List.getElem_idxOf, List.getElem_idxOf] at h
    exact h.le

lemma isLeast_first (h : first model x.toArray tol = .ok (some d)) : ∃ i,
    firstFractional.Takes model x tol i ∧ tol < Scalar.fractionality (x.get i) ∧ d = .split i (x.get i) := by
  rw [first_eq, Except.ok.injEq, List.findSome?_eq_some_iff] at h
  obtain ⟨before, i, after, hsplit, hi, hbefore⟩ := h
  obtain ⟨hoff, rfl⟩ := Model.splitAt?_eq_some hi
  refine ⟨i, ⟨⟨?_, hoff⟩, ?_⟩, hoff, rfl⟩
  · rw [hsplit]
    exact List.mem_append_right _ List.mem_cons_self
  · rintro j ⟨hj, hoff'⟩
    have ascending := model.ascending
    rw [hsplit, List.pairwise_append, List.pairwise_cons] at ascending
    rw [hsplit, List.mem_append, List.mem_cons] at hj
    rcases hj with hj | rfl | hj
    · exact absurd hoff' (Model.splitAt?_eq_none (hbefore j hj))
    · exact le_rfl
    · exact (ascending.2.1.1 j hj).le

lemma isLeast_most (h : most model x.toArray tol = .ok (some d)) : ∃ i,
    mostFractional.Takes model x tol i ∧ tol < Scalar.fractionality (x.get i) ∧ d = .split i (x.get i) := by
  rw [most_eq, Except.ok.injEq, Option.map_eq_some_iff] at h
  obtain ⟨f, hf, rfl⟩ := h
  rw [foldl_farther_eq] at hf
  obtain ⟨i, hi, hoff, rfl⟩ := Model.mem_fractionals.1 (List.argmax_mem hf)
  -- Variables that are not on the list are nearer to the whole numbers than any on it.
  have hfarthest : ∀ j ∈ model.integers, Scalar.fractionality (x.get j) ≤ Scalar.fractionality (x.get i) := by
    intro j hj
    by_cases hoff' : tol < Scalar.fractionality (x.get j)
    · have hmem := Model.mem_fractionals.2 ⟨j, hj, hoff', rfl⟩
      have hle := List.le_of_mem_argmax hmem hf
      exact hle
    · exact (not_lt.1 hoff').trans hoff.le
  refine ⟨i, ⟨⟨hi, hfarthest⟩, ?_⟩, hoff, rfl⟩
  rintro j ⟨hj, hfarthest'⟩
  have hmem := Model.mem_fractionals.2 ⟨j, hj, hoff.trans_le (hfarthest' i hi), rfl⟩
  exact var_le_of_idxOf_le model.ascending_fractionals (List.argmax_mem hf) hmem
    (List.index_of_argmax hf hmem (hfarthest' i hi))

/-- A rule branches on the variable that it takes. -/
lemma takes_of_select {rule : BranchingRule} (h : rule.select model x.toArray tol = .ok (some d)) : ∃ i,
    rule.Takes model x tol i ∧ tol < Scalar.fractionality (x.get i) ∧ d = .split i (x.get i) := by
  cases rule with
  | firstFractional => exact isLeast_first h
  | mostFractional => exact isLeast_most h

lemma select_eq_none_iff {rule : BranchingRule} : rule.select model x.toArray tol = .ok none ↔
    ∀ i ∈ model.integers, Scalar.fractionality (x.get i) ≤ tol := by
  constructor
  · intro h i hi
    exact not_lt.1 (select_none h i hi)
  · intro h
    obtain ⟨choice, chosen⟩ := rule.exists_select model x tol
    cases choice with
    | none => exact chosen
    | some d =>
      obtain ⟨i, hi, hoff, -⟩ := select_some chosen
      exact absurd (h i hi) (not_le.2 hoff)

/-- A rule branches unless the point is whole, which all three scans find at the same points. It branches on the
variable that it takes: one side caps it at an integer and the other raises it to the next, neither admits the
value, and each integer is admitted by one of them. -/
theorem select_branches (rule : BranchingRule) (model : Model Rat m n) (x : Vector Rat n) (tol : Rat)
    (htol : 0 ≤ tol) :
    (rule.select model x.toArray tol = .ok none ↔ model.isIntegral x.toArray tol = .ok true) ∧
    (model.isIntegral x.toArray tol = .ok true ↔ model.fractionals x.toArray tol = .ok []) ∧
    (model.isIntegral x.toArray tol ≠ .ok true → ∃ (i : Fin n) (k : ℤ) (d : Decision Rat),
      rule.select model x.toArray tol = .ok (some d) ∧ rule.Takes model x tol i ∧
      d = ⟨i, x.get i, ⟨i, none, some (k : Rat)⟩, ⟨i, some (k + 1 : Rat), none⟩⟩ ∧
      k < x.get i ∧ x.get i < k + 1 ∧
      d.down.admits (x.get i) = false ∧ d.up.admits (x.get i) = false ∧
      ∀ z : ℤ, d.down.admits z = !d.up.admits z) := by
  have hnone : rule.select model x.toArray tol = .ok none ↔ model.isIntegral x.toArray tol = .ok true := by
    rw [select_eq_none_iff, Model.isIntegral_iff]
  refine ⟨hnone, ?_, ?_⟩
  · rw [Model.isIntegral_iff, Model.fractionals_eq_nil_iff]
  · intro hoff
    obtain ⟨choice, chosen⟩ := rule.exists_select model x tol
    cases choice with
    | none => exact absurd (hnone.1 chosen) hoff
    | some d =>
      obtain ⟨i, htakes, hoff, rfl⟩ := takes_of_select chosen
      obtain ⟨k, hbelow, habove, hsplit, hdown, hup⟩ := Decision.exists_split_eq i.val htol hoff
      refine ⟨i, k, _, chosen, htakes, hsplit, hbelow, habove, ?_, ?_, ?_⟩
      · rw [← Bool.not_eq_true, hdown]
        exact not_le.2 hbelow
      · rw [← Bool.not_eq_true, hup]
        exact not_le.2 habove
      · intro z
        rw [Bool.eq_iff_iff, Bool.not_eq_true', ← Bool.not_eq_true, hdown, hup]
        norm_cast
        omega

/-- Four integer variables of a given sum. -/
def summing : Model Rat 1 4 where
  matrix := .ofRows #v[#v[1, 1, 1, 1]]
  target := #v[9 / 8]
  cost := #v[1, 2, 1, 2]
  bounds := Vector.replicate 4 (.between (-4) 4)
  integers := [0, 1, 2, 3]
  ascending := by decide

/-- Of two halves the first is taken, and a negative one is split like any other. -/
theorem select_branches_halves :
    let x : Vector Rat 4 := #v[1 / 8, -5 / 2, 1 / 2, 3]
    let d : Decision Rat := ⟨1, -5 / 2, ⟨1, none, some (-3)⟩, ⟨1, some (-2), none⟩⟩
    (0 : Rat) ≤ 1 / 100 ∧ summing.isIntegral x.toArray (1 / 100) ≠ .ok true ∧
    mostFractional.select summing x.toArray (1 / 100) = .ok (some d) ∧
    mostFractional.Takes summing x (1 / 100) 1 ∧ ∀ z : ℤ, d.down.admits z = !d.up.admits z := by
  intro x d
  have hoff : summing.isIntegral x.toArray (1 / 100) ≠ .ok true := by
    decide +kernel
  have hchosen : mostFractional.select summing x.toArray (1 / 100) = .ok (some d) := by
    decide +kernel
  obtain ⟨i, k, d', hchosen', htakes, hd, -, -, -, -, hsides⟩ :=
    (select_branches mostFractional summing x (1 / 100) (by norm_num)).2.2 hoff
  obtain rfl : d = d' := Option.some.inj (Except.ok.inj (hchosen.symm.trans hchosen'))
  obtain rfl : 1 = i := Fin.ext (congrArg Decision.var hd)
  exact ⟨by norm_num, hoff, hchosen, htakes, hsides⟩

end BranchingRule

end IntegerProgram
