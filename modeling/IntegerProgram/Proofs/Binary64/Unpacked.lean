import Mathlib
import IntegerProgram.Scalar.Binary64

/-!
# Unpacked binary64 numbers

The sign, significand and exponent of a binary64 number, and the rational number they stand for.

* `IsCanonical`: what the format stores, a significand of 53 bits or the least exponent.
* `compare_eq_some_iff`: canonical numbers compare as the places they have on the extended rational line,
  once they are defined.
-/

namespace IntegerProgram.Binary64

open Float.Model (UnpackedFloat)
open Float.Model.UnpackedFloat (Sign)

/-- The first power of two beyond the finite numbers. -/
def far : ℚ :=
  2 ^ (1024 : ℤ)

/-- The place of a number on the rational line: a finite number is where its value is, an infinity is put
beyond all of them, and an undefined number at zero. -/
def place : UnpackedFloat → ℚ
  | .infinity .negative => -far
  | .infinity .positive => far
  | .finite s m e _ => s.apply m * 2 ^ e
  | _ => 0

/-- A number as the format stores it: its significand has 53 bits, or else its exponent is the least. -/
def IsCanonical : UnpackedFloat → Prop
  | .finite _ m e _ => m < 2 ^ 53 ∧ -1074 ≤ e ∧ e ≤ 971 ∧ (2 ^ 52 ≤ m ∨ e = -1074)
  | _ => True

/-- Of two canonical magnitudes the one with the larger exponent is larger. -/
lemma magnitude_lt_of_exponent {m₁ m₂ : ℕ} {e₁ e₂ : ℤ} (h₁ : m₁ < 2 ^ 53) (hmin : -1074 ≤ e₁)
    (h₂ : 2 ^ 52 ≤ m₂ ∨ e₂ = -1074) (he : e₁ < e₂) : (m₁ * 2 ^ e₁ : ℚ) < m₂ * 2 ^ e₂ := by
  have h₂ : 2 ^ 52 ≤ m₂ := by
    rcases h₂ with h₂ | h₂
    · exact h₂
    · omega
  have hpow : (2 : ℚ) ^ (e₁ + 1) ≤ 2 ^ e₂ := zpow_le_zpow_right₀ one_le_two he
  calc (m₁ * 2 ^ e₁ : ℚ) < 2 ^ 53 * 2 ^ e₁ := by
        have : (m₁ : ℚ) < 2 ^ 53 := by exact_mod_cast h₁
        exact mul_lt_mul_of_pos_right this (by positivity)
    _ = 2 ^ 52 * 2 ^ (e₁ + 1) := by
        rw [zpow_add₀ two_ne_zero]
        ring
    _ ≤ m₂ * 2 ^ e₂ := by
        have : (2 ^ 52 : ℚ) ≤ m₂ := by exact_mod_cast h₂
        exact mul_le_mul this hpow (by positivity) (by positivity)

/-- Canonical magnitudes compare by the exponent first. -/
lemma compare_magnitudes {m₁ m₂ : ℕ} {e₁ e₂ : ℤ} (h₁ : m₁ < 2 ^ 53) (h₂ : m₂ < 2 ^ 53)
    (hmin₁ : -1074 ≤ e₁) (hmin₂ : -1074 ≤ e₂) (hc₁ : 2 ^ 52 ≤ m₁ ∨ e₁ = -1074)
    (hc₂ : 2 ^ 52 ≤ m₂ ∨ e₂ = -1074) :
    (compare e₁ e₂).then (compare m₁ m₂) = compare (m₁ * 2 ^ e₁ : ℚ) (m₂ * 2 ^ e₂) := by
  rcases lt_trichotomy e₁ e₂ with he | rfl | he
  · rw [compare_lt_iff_lt.2 he, compare_lt_iff_lt.2 (magnitude_lt_of_exponent h₁ hmin₁ hc₂ he)]
    rfl
  · have hpos : (0 : ℚ) < 2 ^ e₁ := by positivity
    rw [compare_eq_iff_eq.2 rfl]
    show compare m₁ m₂ = _
    rcases lt_trichotomy m₁ m₂ with hm | rfl | hm
    · have : (m₁ * 2 ^ e₁ : ℚ) < m₂ * 2 ^ e₁ :=
        mul_lt_mul_of_pos_right (by exact_mod_cast hm) hpos
      rw [compare_lt_iff_lt.2 hm, compare_lt_iff_lt.2 this]
    · rw [compare_eq_iff_eq.2 rfl, compare_eq_iff_eq.2 rfl]
    · have : (m₂ * 2 ^ e₁ : ℚ) < m₁ * 2 ^ e₁ :=
        mul_lt_mul_of_pos_right (by exact_mod_cast hm) hpos
      rw [compare_gt_iff_gt.2 hm, compare_gt_iff_gt.2 this]
  · rw [compare_gt_iff_gt.2 he, compare_gt_iff_gt.2 (magnitude_lt_of_exponent h₂ hmin₂ hc₁ he)]
    rfl

lemma far_pos : 0 < far := by
  unfold far
  positivity

/-- A canonical magnitude is below the infinities. -/
lemma magnitude_lt_far {m : ℕ} {e : ℤ} (hm : m < 2 ^ 53) (he : e ≤ 971) : (m * 2 ^ e : ℚ) < far := by
  calc (m * 2 ^ e : ℚ) < 2 ^ (53 : ℤ) * 2 ^ e := by
        have : (m : ℚ) < 2 ^ (53 : ℤ) := by exact_mod_cast hm
        exact mul_lt_mul_of_pos_right this (by positivity)
    _ = 2 ^ (53 + e) := (zpow_add₀ two_ne_zero _ _).symm
    _ ≤ far := zpow_le_zpow_right₀ one_le_two (by omega)

lemma apply_eq_mul (s : Sign) (m : ℕ) : (s.apply m : ℚ) = s.apply 1 * m := by
  cases s <;> simp [Sign.apply]

section Finite

variable {s : Sign} {m : ℕ} {e : ℤ} {hm : 0 < m}

lemma place_finite : place (.finite s m e hm) = s.apply 1 * (m * 2 ^ e) := by
  show (s.apply m : ℚ) * 2 ^ e = _
  rw [apply_eq_mul, mul_assoc]

lemma place_negative (hm : 0 < m) : place (.finite .negative m e hm) = -(m * 2 ^ e) := by
  simp [place, Sign.apply]

lemma place_positive (hm : 0 < m) : place (.finite .positive m e hm) = m * 2 ^ e := by
  simp [place, Sign.apply]

lemma place_negative_lt : place (.finite .negative m e hm) < 0 := by
  have hpos : (0 : ℚ) < m * 2 ^ e := by positivity
  rw [place_negative]
  exact neg_lt_zero.2 hpos

lemma place_positive_pos : 0 < place (.finite .positive m e hm) := by
  rw [place_positive]
  positivity

lemma abs_place_finite : |place (.finite s m e hm)| = m * 2 ^ e := by
  have hpos : (0 : ℚ) < m * 2 ^ e := by positivity
  cases s with
  | negative => rw [place_negative, abs_neg, abs_of_pos hpos]
  | positive => rw [place_positive, abs_of_pos hpos]

/-- A finite number lies strictly between the infinities. -/
lemma place_lt_far (h : IsCanonical (.finite s m e hm)) :
    -far < place (.finite s m e hm) ∧ place (.finite s m e hm) < far := by
  rw [← abs_lt, abs_place_finite]
  exact magnitude_lt_far h.1 h.2.2.1

end Finite

/-- No number lies beyond the infinities. -/
lemma abs_place_le {u : UnpackedFloat} (h : IsCanonical u) : |place u| ≤ far := by
  have hfar := far_pos
  cases u with
  | notANumber => simpa [place] using hfar.le
  | zero s => simpa [place] using hfar.le
  | infinity s =>
    cases s with
    | negative =>
      show |-far| ≤ far
      rw [abs_neg, abs_of_pos hfar]
    | positive => exact (abs_of_pos hfar).le
  | finite s m e hm => exact (abs_lt.2 (place_lt_far h)).le

section Compare

variable {p q : ℚ}

lemma some_lt (h : p < q) : some Ordering.lt = some (compare p q) := by
  rw [compare_lt_iff_lt.2 h]

lemma some_gt (h : q < p) : some Ordering.gt = some (compare p q) := by
  rw [compare_gt_iff_gt.2 h]

lemma some_eq (p : ℚ) : some Ordering.eq = some (compare p p) := by
  rw [compare_eq_iff_eq.2 rfl]

lemma compare_neg (p q : ℚ) : compare (-p) (-q) = (compare p q).swap := by
  rcases lt_trichotomy p q with h | rfl | h
  · rw [compare_lt_iff_lt.2 h, compare_gt_iff_gt.2 (neg_lt_neg h)]
    rfl
  · rw [compare_eq_iff_eq.2 rfl, compare_eq_iff_eq.2 rfl]
    rfl
  · rw [compare_gt_iff_gt.2 h, compare_lt_iff_lt.2 (neg_lt_neg h)]
    rfl

end Compare

section Canonical

variable {a b : UnpackedFloat}

/-- An infinity compares as its place does. -/
lemma compare_infinity (s : Sign) (hb : IsCanonical b) (hnb : b.isNaN = false) :
    (UnpackedFloat.infinity s).compare b = some (compare (place (.infinity s)) (place b)) := by
  have hfar := far_pos
  have hends : -far < far := neg_lt_self hfar
  cases b with
  | notANumber => cases hnb
  | infinity t =>
    cases s with
    | negative =>
      cases t with
      | negative => exact some_eq _
      | positive => exact some_lt hends
    | positive =>
      cases t with
      | negative => exact some_gt hends
      | positive => exact some_eq _
  | zero t =>
    cases s with
    | negative => exact some_lt (neg_lt_zero.2 hfar)
    | positive => exact some_gt hfar
  | finite t m e hm =>
    obtain ⟨hlow, hhigh⟩ := place_lt_far hb
    cases s with
    | negative => exact some_lt hlow
    | positive => exact some_gt hhigh

/-- A zero compares as its place does. -/
lemma compare_zero (s : Sign) (hnb : b.isNaN = false) :
    (UnpackedFloat.zero s).compare b = some (compare 0 (place b)) := by
  cases b with
  | notANumber => cases hnb
  | infinity t =>
    cases t with
    | negative => exact some_gt (neg_lt_zero.2 far_pos)
    | positive => exact some_lt far_pos
  | zero t => exact some_eq _
  | finite t m e hm =>
    cases t with
    | negative => exact some_gt place_negative_lt
    | positive => exact some_lt place_positive_pos

/-- Two finite numbers compare by their signs and then by their magnitudes. -/
lemma compare_finites {s t : Sign} {m₁ m₂ : ℕ} {e₁ e₂ : ℤ} {hm₁ : 0 < m₁} {hm₂ : 0 < m₂}
    (ha : IsCanonical (.finite s m₁ e₁ hm₁)) (hb : IsCanonical (.finite t m₂ e₂ hm₂)) :
    (UnpackedFloat.finite s m₁ e₁ hm₁).compare (.finite t m₂ e₂ hm₂) =
      some (compare (place (.finite s m₁ e₁ hm₁)) (place (.finite t m₂ e₂ hm₂))) := by
  obtain ⟨h₁, hmin₁, -, hc₁⟩ := ha
  obtain ⟨h₂, hmin₂, -, hc₂⟩ := hb
  have hcompare := compare_magnitudes h₁ h₂ hmin₁ hmin₂ hc₁ hc₂
  cases s with
  | negative =>
    cases t with
    | negative =>
      rw [place_negative, place_negative, compare_neg, ← hcompare]
      rfl
    | positive => exact some_lt (place_negative_lt.trans place_positive_pos)
  | positive =>
    cases t with
    | negative => exact some_gt (place_negative_lt.trans place_positive_pos)
    | positive =>
      rw [place_positive, place_positive, ← hcompare]
      rfl

/-- A finite number compares as its place does. -/
lemma compare_finite {s : Sign} {m : ℕ} {e : ℤ} {hm : 0 < m} (ha : IsCanonical (.finite s m e hm))
    (hb : IsCanonical b) (hnb : b.isNaN = false) :
    (UnpackedFloat.finite s m e hm).compare b =
      some (compare (place (.finite s m e hm)) (place b)) := by
  cases b with
  | notANumber => cases hnb
  | infinity t =>
    obtain ⟨hlow, hhigh⟩ := place_lt_far ha
    cases t with
    | negative => exact some_gt hlow
    | positive => exact some_lt hhigh
  | zero t =>
    cases s with
    | negative => exact some_lt place_negative_lt
    | positive => exact some_gt place_positive_pos
  | finite t m₂ e₂ hm₂ => exact compare_finites ha hb

/-- Canonical numbers compare as their places do. -/
lemma compare_eq (ha : IsCanonical a) (hb : IsCanonical b) (hna : a.isNaN = false)
    (hnb : b.isNaN = false) : a.compare b = some (compare (place a) (place b)) := by
  cases a with
  | notANumber => cases hna
  | infinity s => exact compare_infinity s hb hnb
  | zero s => exact compare_zero s hnb
  | finite s m e hm => exact compare_finite ha hb hnb

lemma isNaN_of_compare {o : Ordering} (h : a.compare b = some o) :
    a.isNaN = false ∧ b.isNaN = false := by
  cases b with
  | notANumber => cases a <;> cases h
  | _ =>
    cases a with
    | notANumber => cases h
    | _ => exact ⟨rfl, rfl⟩

/-- A comparison has an answer exactly when both numbers are defined, and it is that of the places. -/
lemma compare_eq_some_iff {o : Ordering} (ha : IsCanonical a) (hb : IsCanonical b) :
    a.compare b = some o ↔
      a.isNaN = false ∧ b.isNaN = false ∧ compare (place a) (place b) = o := by
  constructor
  · intro h
    obtain ⟨hna, hnb⟩ := isNaN_of_compare h
    rw [compare_eq ha hb hna hnb] at h
    exact ⟨hna, hnb, Option.some.inj h⟩
  · rintro ⟨hna, hnb, rfl⟩
    exact compare_eq ha hb hna hnb

/-- The weak comparison of canonical numbers. -/
lemma le_iff (ha : IsCanonical a) (hb : IsCanonical b) :
    a.le b = true ↔ a.isNaN = false ∧ b.isNaN = false ∧ place a ≤ place b := by
  unfold UnpackedFloat.le
  rw [Option.any_eq_true]
  simp only [compare_eq_some_iff ha hb, ← compare_le_iff_le, Ordering.ne_gt_iff_isLE]
  constructor
  · rintro ⟨o, ⟨hna, hnb, rfl⟩, hle⟩
    exact ⟨hna, hnb, hle⟩
  · rintro ⟨hna, hnb, hle⟩
    exact ⟨_, ⟨hna, hnb, rfl⟩, hle⟩

/-- The strict comparison of canonical numbers. -/
lemma lt_iff (ha : IsCanonical a) (hb : IsCanonical b) :
    a.lt b = true ↔ a.isNaN = false ∧ b.isNaN = false ∧ place a < place b := by
  unfold UnpackedFloat.lt
  rw [beq_iff_eq, compare_eq_some_iff ha hb, compare_lt_iff_lt]

/-- The equality test of canonical numbers. -/
lemma beq_iff (ha : IsCanonical a) (hb : IsCanonical b) :
    a.beq b = true ↔ a.isNaN = false ∧ b.isNaN = false ∧ place a = place b := by
  unfold UnpackedFloat.beq
  rw [beq_iff_eq, compare_eq_some_iff ha hb, compare_eq_iff_eq]

end Canonical

end IntegerProgram.Binary64
