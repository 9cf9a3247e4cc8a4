import Mathlib
import IntegerProgram.Proofs.Exact

/-!
# Lawful scalars

The laws of order and rounding on which a search relies, in a form that leaves room for undefined
values: comparisons hold between defined values only, the larger and the smaller of two defined values
are what they say, and whole numbers lie on exactly one side of a value that is off the whole numbers.
Where values have places on the rational line (`ValuedScalar`), order and rounding can be read off there.
-/

namespace IntegerProgram

/-- The laws of order and rounding of a number system that may have undefined values. -/
class LawfulScalar (α : Type) [Scalar α] : Prop where
  /-- Values that compare are defined. -/
  defined_of_le : ∀ {a b : α}, a ≤ b → Scalar.isNaN a = false ∧ Scalar.isNaN b = false
  /-- The larger of two defined values is their least upper bound. -/
  max_le_iff : ∀ {a b : α}, Scalar.isNaN a = false → Scalar.isNaN b = false →
    ∀ v, max a b ≤ v ↔ a ≤ v ∧ b ≤ v
  /-- The smaller of two defined values is their greatest lower bound. -/
  le_min_iff : ∀ {a b : α}, Scalar.isNaN a = false → Scalar.isNaN b = false →
    ∀ v, v ≤ min a b ↔ v ≤ a ∧ v ≤ b
  /-- The larger of two defined values is defined. -/
  defined_max : ∀ {a b : α}, Scalar.isNaN a = false → Scalar.isNaN b = false →
    Scalar.isNaN (max a b) = false
  /-- The smaller of two defined values is defined. -/
  defined_min : ∀ {a b : α}, Scalar.isNaN a = false → Scalar.isNaN b = false →
    Scalar.isNaN (min a b) = false
  /-- The bottom of the number system, if there is one, lies below all defined values. -/
  bottom_le : ∀ l ∈ (Scalar.bottom? : Option α), Scalar.isNaN l = false ∧
    ∀ v, Scalar.isNaN v = false → l ≤ v
  /-- A value between two others keeps them in order. -/
  not_lt : ∀ {a b v : α}, a ≤ v → v ≤ b → ¬ b < a
  /-- Next to a value off the whole numbers there are defined whole numbers. -/
  defined_floor_ceil : ∀ {v tol : α}, 0 ≤ tol → tol < Scalar.fractionality v →
    Scalar.isNaN (Scalar.floor v) = false ∧ Scalar.isNaN (Scalar.ceil v) = false
  /-- A whole number lies on exactly one side of a value off the whole numbers. -/
  le_floor_iff : ∀ {v tol z : α}, 0 ≤ tol → tol < Scalar.fractionality v → Scalar.IsWhole z →
    (z ≤ Scalar.floor v ↔ ¬ Scalar.ceil v ≤ z)

/-- A lawful number system in which defined values are linearly ordered up to equality as the program tests it,
and the larger and the smaller of two values are one of the two. -/
class OrderedScalar (α : Type) [Scalar α] : Prop extends LawfulScalar α where
  /-- A defined value compares with itself. -/
  le_refl : ∀ {a : α}, Scalar.isNaN a = false → a ≤ a
  /-- The weak comparison can be chained. -/
  le_trans : ∀ {a b c : α}, a ≤ b → b ≤ c → a ≤ c
  /-- Of two defined values one that is not below the other is above it. -/
  le_of_not_lt : ∀ {a b : α}, Scalar.isNaN a = false → Scalar.isNaN b = false → ¬ a < b → b ≤ a
  /-- Values that compare both ways pass for equal. -/
  beq_of_le : ∀ {a b : α}, a ≤ b → b ≤ a → (a == b) = true
  /-- The larger of two values is one of them. -/
  max_eq : ∀ a b : α, max a b = a ∨ max a b = b
  /-- The smaller of two values is one of them. -/
  min_eq : ∀ a b : α, min a b = a ∨ min a b = b

namespace OrderedScalar

variable {α : Type} [Scalar α] [OrderedScalar α] {a b : α}

lemma le_max_left (ha : Scalar.isNaN a = false) (hb : Scalar.isNaN b = false) : a ≤ max a b :=
  ((LawfulScalar.max_le_iff ha hb _).1 (le_refl (LawfulScalar.defined_max ha hb))).1

lemma le_max_right (ha : Scalar.isNaN a = false) (hb : Scalar.isNaN b = false) : b ≤ max a b :=
  ((LawfulScalar.max_le_iff ha hb _).1 (le_refl (LawfulScalar.defined_max ha hb))).2

lemma min_le_left (ha : Scalar.isNaN a = false) (hb : Scalar.isNaN b = false) : min a b ≤ a :=
  ((LawfulScalar.le_min_iff ha hb _).1 (le_refl (LawfulScalar.defined_min ha hb))).1

lemma min_le_right (ha : Scalar.isNaN a = false) (hb : Scalar.isNaN b = false) : min a b ≤ b :=
  ((LawfulScalar.le_min_iff ha hb _).1 (le_refl (LawfulScalar.defined_min ha hb))).2

end OrderedScalar

/-- A lawful number system whose values have places on the rational line. Order and rounding off the whole
numbers are those of the places. -/
class ValuedScalar (α : Type) [Scalar α] extends LawfulScalar α where
  /-- The place of a value. -/
  value : α → ℚ
  /-- Defined values are in the order of their places. -/
  le_iff_value : ∀ {a b : α}, a ≤ b ↔
    Scalar.isNaN a = false ∧ Scalar.isNaN b = false ∧ value a ≤ value b
  /-- A value off the whole numbers is no integer. -/
  value_ne : ∀ {v tol : α}, 0 ≤ tol → tol < Scalar.fractionality v → ∀ k : ℤ, value v ≠ k
  /-- The whole number under a value off the whole numbers. -/
  value_floor : ∀ {v tol : α}, 0 ≤ tol → tol < Scalar.fractionality v →
    value (Scalar.floor v) = ⌊value v⌋
  /-- The whole number over a value off the whole numbers. -/
  value_ceil : ∀ {v tol : α}, 0 ≤ tol → tol < Scalar.fractionality v →
    value (Scalar.ceil v) = ⌈value v⌉

namespace ValuedScalar

variable {α : Type} [Scalar α] [ValuedScalar α]

/-- Values that compare have their places in order. -/
lemma value_le {a b : α} (h : a ≤ b) : value a ≤ value b :=
  (le_iff_value.1 h).2.2

/-- There is no integer between the whole numbers next to a value off the whole numbers. -/
lemma ceil_value {v tol : α} (htol : 0 ≤ tol) (hoff : tol < Scalar.fractionality v) :
    ⌈value v⌉ = ⌊value v⌋ + 1 := by
  rw [Int.ceil_eq_floor_add_one_iff_notMem]
  rintro ⟨k, hk⟩
  exact value_ne htol hoff k hk.symm

end ValuedScalar

namespace Rational

/-- Every rational number is defined. -/
@[simp] lemma isNaN_eq (q : Rat) : Scalar.isNaN q = false :=
  rfl

/-- A number off the whole numbers by more than a tolerance is not whole. -/
lemma not_isWhole {q tol : Rat} (htol : 0 ≤ tol) (hoff : tol < Scalar.fractionality q) :
    ¬ Scalar.IsWhole q := by
  intro hwhole
  exact not_lt.2 (hwhole.trans htol) hoff

instance : LawfulScalar Rat where
  defined_of_le _ := ⟨rfl, rfl⟩
  max_le_iff _ _ _ := max_le_iff
  le_min_iff _ _ _ := le_min_iff
  defined_max _ _ := rfl
  defined_min _ _ := rfl
  bottom_le l hl := by
    cases hl
  not_lt h1 h2 := not_lt.2 (h1.trans h2)
  defined_floor_ceil _ _ := ⟨rfl, rfl⟩
  le_floor_iff h0 h hz := le_floor_iff (not_isWhole h0 h) hz

instance : OrderedScalar Rat where
  le_refl _ := le_refl _
  le_trans := le_trans
  le_of_not_lt _ _ := not_lt.1
  beq_of_le h₁ h₂ := beq_iff_eq.2 (le_antisymm h₁ h₂)
  max_eq := max_choice
  min_eq := min_choice

instance : ValuedScalar Rat where
  value := id
  le_iff_value := by simp
  value_ne h0 h k hk := not_isWhole h0 h (isWhole_iff.2 ⟨k, hk⟩)
  value_floor _ _ := floor_eq _
  value_ceil _ _ := ceil_eq _

end Rational

end IntegerProgram
