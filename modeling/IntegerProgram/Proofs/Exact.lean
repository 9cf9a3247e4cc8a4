import Mathlib
import IntegerProgram.Scalar.Rational
import IntegerProgram.Vectors

/-!
# Exact scalars as rational numbers

The operations of the exact number system in the words of ordinary arithmetic: the absolute value and
the whole numbers below and above are those of the rationals, the left-to-right sum is the sum of a
list, and the inner product of two vectors is a finite sum. The whole values are the integers: rounding
leaves them alone, and they lie on exactly one side of every other value.
-/

namespace IntegerProgram

/-- A whole value: its distance to the nearest whole number is zero. -/
def Scalar.IsWhole {α : Type} [Scalar α] (v : α) : Prop :=
  Scalar.fractionality v ≤ 0

namespace Rational

/-- The absolute value is that of the rationals. -/
@[simp] lemma abs_eq (q : Rat) : Scalar.abs q = |q| := by
  show q.abs = |q|
  unfold Rat.abs
  split
  · rw [abs_of_nonneg (by assumption)]
  · rw [abs_of_neg (by linarith)]

/-- The whole number below is the floor. -/
@[simp] lemma floor_eq (q : Rat) : Scalar.floor q = (⌊q⌋ : ℤ) :=
  rfl

/-- The whole number above is the ceiling. -/
@[simp] lemma ceil_eq (q : Rat) : Scalar.ceil q = (⌈q⌉ : ℤ) := by
  show ((q.ceil : ℤ) : Rat) = (⌈q⌉ : ℤ)
  rw [Rat.ceil_eq_neg_floor_neg]
  rfl

/-- There is no outermost rational number. -/
@[simp] lemma top_eq : (Scalar.top? : Option Rat) = none :=
  rfl

/-- Rounding, by the sign of the value. -/
lemma round_eq (q : Rat) :
    Scalar.round q = if 0 ≤ q then ((⌊q + 1 / 2⌋ : ℤ) : Rat) else ((⌈q - 1 / 2⌉ : ℤ) : Rat) := by
  show Rational.round q = _
  unfold Rational.round
  split
  · rfl
  · rw [Rat.ceil_eq_neg_floor_neg]
    rfl

/-- A rounded value is an integer. -/
lemma exists_round_eq (q : Rat) : ∃ k : ℤ, Scalar.round q = k := by
  rw [round_eq]
  split
  · exact ⟨_, rfl⟩
  · exact ⟨_, rfl⟩

/-- An integer is its own rounding. -/
lemma round_intCast (k : ℤ) : Scalar.round (k : Rat) = k := by
  rw [round_eq]
  split
  · congr 1
    rw [Int.floor_eq_iff]
    constructor <;> linarith
  · congr 1
    rw [Int.ceil_eq_iff]
    constructor <;> linarith

/-- Rounding twice is rounding once. -/
@[simp] lemma round_round (q : Rat) : Scalar.round (Scalar.round q) = Scalar.round q := by
  obtain ⟨k, hk⟩ := exists_round_eq q
  rw [hk, round_intCast]

/-- The distance to the nearest whole number, as an absolute value. -/
lemma fractionality_eq (q : Rat) : Scalar.fractionality q = |q - Scalar.round q| :=
  abs_eq _

/-- The whole values are the integers. -/
lemma isWhole_iff {q : Rat} : Scalar.IsWhole q ↔ ∃ k : ℤ, q = k := by
  unfold Scalar.IsWhole
  rw [fractionality_eq]
  constructor
  · intro h
    obtain ⟨k, hk⟩ := exists_round_eq q
    have := abs_nonpos_iff.1 h
    exact ⟨k, by linarith⟩
  · rintro ⟨k, rfl⟩
    rw [round_intCast, sub_self, abs_zero]

/-- A whole value is its own rounding. -/
lemma round_of_isWhole {q : Rat} (h : Scalar.IsWhole q) : Scalar.round q = q := by
  obtain ⟨k, rfl⟩ := isWhole_iff.1 h
  exact round_intCast k

/-- A whole number lies on exactly one side of a value that is not whole. -/
lemma le_floor_iff {v z : Rat} (hv : ¬ Scalar.IsWhole v) (hz : Scalar.IsWhole z) :
    z ≤ Scalar.floor v ↔ ¬ Scalar.ceil v ≤ z := by
  obtain ⟨k, rfl⟩ := isWhole_iff.1 hz
  have hc : ⌈v⌉ = ⌊v⌋ + 1 := by
    rw [Int.ceil_eq_floor_add_one_iff_notMem]
    rintro ⟨k, e⟩
    exact hv (isWhole_iff.2 ⟨k, e.symm⟩)
  rw [floor_eq, ceil_eq, hc]
  norm_cast
  omega

/-- The sum from left to right is the sum of the list. -/
lemma sum_eq (values : List Rat) : Scalar.sum values = values.sum := by
  have h : ∀ start : Rat, values.foldl (· + ·) start = start + values.sum := by
    induction values with
    | nil => simp
    | cons v rest ih =>
      intro start
      rw [List.foldl_cons, ih, List.sum_cons, add_assoc]
  rw [Scalar.sum, h]
  simp

/-- The largest absolute value is the least bound on all of them. -/
lemma maxAbs_le_iff {values : List Rat} {bound : Rat} :
    Scalar.maxAbs values ≤ bound ↔ 0 ≤ bound ∧ ∀ v ∈ values, |v| ≤ bound := by
  have h : ∀ start : Rat, values.foldl (fun largest v => max largest (Scalar.abs v)) start ≤ bound ↔
      start ≤ bound ∧ ∀ v ∈ values, |v| ≤ bound := by
    induction values with
    | nil => simp
    | cons v rest ih =>
      intro start
      rw [List.foldl_cons, ih, List.forall_mem_cons, ← and_assoc, abs_eq]
      exact and_congr_left fun _ => max_le_iff
  exact h 0

end Rational

namespace Vectors

variable {n k : Nat}

/-- Positions of the first part of a vector are none of the second. -/
lemma castAdd_ne_natAdd (i : Fin n) (j : Fin k) : i.castAdd k ≠ j.natAdd n := by
  intro e
  have hval := congrArg Fin.val e
  simp only [Fin.val_castAdd, Fin.val_natAdd] at hval
  omega

/-- The inner product of two vectors. -/
def inner (c x : Vector Rat n) : Rat :=
  ∑ j, c.get j * x.get j

/-- The left-to-right inner product of two vectors is their inner product. -/
lemma dot_toList (c x : Vector Rat n) : Scalar.dot c.toList x.toList = inner c x := by
  rw [Scalar.dot, Rational.sum_eq, inner, ← List.sum_ofFn]
  congr 1
  apply List.ext_getElem
  · simp
  · intro i h1 h2
    simp [get_eq]

end Vectors

end IntegerProgram
