import Mathlib
import IntegerProgram.LinearProgram.Tableau
import IntegerProgram.Proofs.Binary64.NonFinite

/-!
# Zeros, infinities and overflow

How zeros and the positive infinity go through the operations of a pivot, and when a sum stays finite.

* `isCanonical_round`: a magnitude below the midpoint between the largest finite number and the next power of two is
  rounded to a finite number.
* `beq_zero_sub_mul`, `beq_zero_div`: zeros stay zeros as long as the other numbers are finite.
* `nonFinite?_infinity_sub`: what is taken from the positive infinity leaves it infinite or undefined.
* `nonFinite?_ratio`: a defined number, counted as zero when negative, over a positive one is finite or the positive
  infinity.
-/

namespace IntegerProgram.Binary64

open Float.Model (UnpackedFloat Format)
open Float.Model.UnpackedFloat (Sign ExtendedMantissa)

/-! ## Overflow -/

section Rounding

variable {s : Sign} {m : ℕ} {e : ℤ}

lemma roundBit_shiftRight (em : ExtendedMantissa) (k : ℕ) :
    (em >>> (k + 1)).roundBit = (em.mantissa / 2 ^ k % 2 != 0) := by
  have hmantissa := mantissa_shiftRight em k
  show ((em >>> k).mantissa % 2 != 0) = _
  rw [hmantissa]

lemma roundedMantissa_of_roundBit (em : ExtendedMantissa) (h : em.roundBit = false) :
    em.roundedMantissa = em.mantissa := by
  obtain ⟨m, roundBit, stickyBit⟩ := em
  cases h
  cases stickyBit <;> rfl

/-- A significand grows by at most half a unit of its last place. -/
lemma roundedMantissa_shiftRight_le (m k : ℕ) :
    2 * ((ExtendedMantissa.mk m false false >>> k).roundedMantissa * 2 ^ k) ≤ 2 * m + 2 ^ k := by
  cases k with
  | zero =>
    show 2 * (m * 1) ≤ _
    omega
  | succ k =>
    have hbit := roundBit_shiftRight (ExtendedMantissa.mk m false false) k
    have hmantissa := mantissa_shiftRight (ExtendedMantissa.mk m false false) (k + 1)
    have hmem := roundedMantissa_mem (ExtendedMantissa.mk m false false >>> (k + 1))
    have hexact := roundedMantissa_of_roundBit (ExtendedMantissa.mk m false false >>> (k + 1))
    simp only at hbit hmantissa
    rw [hmantissa] at hmem hexact
    rw [hbit] at hexact
    generalize (ExtendedMantissa.mk m false false >>> (k + 1)).roundedMantissa = r at *
    have hhalf : m / 2 ^ (k + 1) = m / 2 ^ k / 2 := by
      rw [pow_succ, Nat.div_div_eq_div_mul]
    have hle : m / 2 ^ k * 2 ^ k ≤ m := Nat.div_mul_le_self _ _
    -- only with the first dropped digit set is the significand rounded up
    have hr : 2 * r ≤ m / 2 ^ k + 1 := by
      rw [hhalf] at hmem hexact
      simp only [bne_eq_false_iff_eq] at hexact
      omega
    calc 2 * (r * 2 ^ (k + 1)) = 2 * r * 2 ^ k * 2 := by ring
      _ ≤ (m / 2 ^ k + 1) * 2 ^ k * 2 := by gcongr
      _ = 2 * (m / 2 ^ k * 2 ^ k) + 2 ^ (k + 1) := by ring
      _ ≤ 2 * m + 2 ^ (k + 1) := by gcongr

/-- The midpoint between the largest finite number and the next power of two. -/
def overflow : ℚ :=
  (2 ^ 54 - 1) * 2 ^ (970 : ℤ)

lemma log2_add_lt_of_lt_overflow (hm : 0 < m) (h : (m * 2 ^ e : ℚ) < overflow) : (m.log2 : ℤ) + e < 1024 := by
  have hlow : (2 ^ m.log2 : ℚ) ≤ m := by
    exact_mod_cast Nat.log2_self_le hm.ne'
  have hover : overflow < 2 ^ (1024 : ℤ) := by
    have hpow : (2 : ℚ) ^ (1024 : ℤ) = 2 ^ 54 * 2 ^ (970 : ℤ) := by
      rw [← zpow_natCast, ← zpow_add₀ two_ne_zero]
      norm_num
    rw [hpow]
    exact mul_lt_mul_of_pos_right (by norm_num) (by positivity)
  have hpow : (2 : ℚ) ^ ((m.log2 : ℤ) + e) < 2 ^ (1024 : ℤ) := by
    calc (2 : ℚ) ^ ((m.log2 : ℤ) + e) = 2 ^ m.log2 * 2 ^ e := by
          rw [zpow_add₀ two_ne_zero, zpow_natCast]
      _ ≤ m * 2 ^ e := by gcongr
      _ < 2 ^ (1024 : ℤ) := h.trans hover
  exact (zpow_lt_zpow_iff_right₀ one_lt_two).1 hpow

/-- A significand that carries over to the last power of two has reached the midpoint. -/
lemma overflow_le_of_carry {k : ℕ} (he : e + k = 971) (h : 2 * (2 ^ 53 * 2 ^ k) ≤ 2 * m + 2 ^ k) :
    overflow ≤ m * 2 ^ e := by
  have hcast : 2 * (2 ^ 53 * 2 ^ k) ≤ (2 * m + 2 ^ k : ℚ) := by
    exact_mod_cast h
  have hscale : (2 : ℚ) ^ k * 2 ^ e = 2 * 2 ^ (970 : ℤ) := by
    rw [← zpow_natCast, ← zpow_add₀ two_ne_zero, add_comm, he, ← zpow_one_add₀ two_ne_zero]
    norm_num
  have hpos : (0 : ℚ) < 2 ^ e := by positivity
  have hscaled := mul_le_mul_of_nonneg_right hcast hpos.le
  rw [add_mul, mul_assoc, mul_assoc, mul_assoc, hscale] at hscaled
  unfold overflow
  linarith

/-- The exponent of a rounded magnitude below the midpoint is that of a finite number. -/
lemma exponent_roundWithAccuracy_le {s' : Sign} {m' : ℕ} {e' : ℤ} {hm' : 0 < m'} (hm : 0 < m)
    (he : e ≤ target m e) (hlt : (m * 2 ^ e : ℚ) < overflow)
    (heq : UnpackedFloat.roundWithAccuracy Format.binary64 s m e .exact = .finite s' m' e' hm') : e' ≤ 971 := by
  rw [roundWithAccuracy_eq rfl rfl] at heq
  have hbound := roundedMantissa_shiftRight_le m (target m e - e).toNat
  generalize hr : (ExtendedMantissa.mk m false false >>> (target m e - e).toNat).roundedMantissa = r at *
  generalize hk : (target m e - e).toNat = k at *
  obtain ⟨-, hhigh⟩ := (Nat.log2_eq_iff hm.ne').1 rfl
  have hfits : r ≤ 2 ^ 53 := by
    have hlog : m.log2 + 1 ≤ 53 + k := by
      unfold target at hk
      omega
    have hm' : m < 2 ^ 53 * 2 ^ k := by
      rw [← pow_add]
      exact hhigh.trans_le (Nat.pow_le_pow_right two_pos hlog)
    have hmem := roundedMantissa_mem (ExtendedMantissa.mk m false false >>> k)
    rw [hr, mantissa_shiftRight] at hmem
    have hdiv : m / 2 ^ k < 2 ^ 53 := (Nat.div_lt_iff_lt_mul (by positivity)).2 hm'
    simp only at hmem
    omega
  have htarget : e + k ≤ 971 := by
    have hlog := log2_add_lt_of_lt_overflow hm hlt
    unfold target at hk he
    omega
  split at heq
  · cases heq
  · cases heq
    rcases hfits.lt_or_eq with hr | rfl
    · have := target_le (e := e + k) hr (by unfold target at hk; omega)
      omega
    · -- a carry would end beyond the finite numbers only from the last exponent on
      have hne : e + k ≠ 971 := fun h => absurd hlt (not_lt.2 (overflow_le_of_carry h hbound))
      have hlog : (2 ^ 53 : ℕ).log2 = 53 := Nat.log2_two_pow
      unfold target at hk ⊢
      rw [hlog]
      omega

/-- A magnitude below the midpoint is rounded to a finite number. -/
lemma isCanonical_round (hm : 0 < m) (he : -1074 ≤ e) (hlt : (m * 2 ^ e : ℚ) < overflow) :
    IsCanonical (UnpackedFloat.round Format.binary64 s m e) := by
  have hrounded := isRounded_round (s := s) hm he
  cases hround : UnpackedFloat.round Format.binary64 s m e with
  | finite s' m' e' hm' =>
    rw [hround] at hrounded
    obtain ⟨hfits, hmin, hc⟩ := hrounded
    refine ⟨hfits, hmin, ?_, hc⟩
    rw [round_eq] at hround
    apply exponent_roundWithAccuracy_le (by positivity) _ _ hround
    · rw [target_scaled hm]
      omega
    · have hscale : ((m * 2 ^ (e - target m e).toNat : ℕ) : ℚ) * 2 ^ (e - (e - target m e).toNat) = m * 2 ^ e := by
        push_cast
        rw [mul_assoc, ← zpow_natCast, ← zpow_add₀ two_ne_zero]
        congr 2
        omega
      rw [hscale]
      exact hlt
  | _ => trivial

lemma isFinite_stored_round (hm : 0 < m) (he : -1074 ≤ e) (hlt : (m * 2 ^ e : ℚ) < overflow) :
    (stored (UnpackedFloat.round Format.binary64 s m e)).isFinite = true := by
  rw [stored_eq (isCanonical_round hm he hlt)]
  have hrounded := isRounded_round (s := s) hm he
  cases hround : UnpackedFloat.round Format.binary64 s m e with
  | finite => rfl
  | _ =>
    rw [hround] at hrounded
    cases hrounded

lemma isFinite_stored_normalize {m : ℤ} {z : Sign} (he : -1074 ≤ e) (hlt : |(m : ℚ)| * 2 ^ e < overflow) :
    (stored (UnpackedFloat.normalize Format.binary64 m e z)).isFinite = true := by
  unfold UnpackedFloat.normalize
  rcases lt_trichotomy m 0 with h | rfl | h
  · rw [compare_lt_iff_lt.2 h]
    apply isFinite_stored_round (by omega) he
    have hsize : (((-m).toNat : ℤ) : ℚ) = |(m : ℚ)| := by
      rw [Int.toNat_of_nonneg (by omega), abs_of_neg (by exact_mod_cast h), Int.cast_neg]
    rw [← Int.cast_natCast, hsize]
    exact hlt
  · rw [compare_eq_iff_eq.2 rfl]
    show (stored (.zero z)).isFinite = true
    rw [stored_eq (a := .zero z) trivial]
    rfl
  · rw [compare_gt_iff_gt.2 h]
    apply isFinite_stored_round (by omega) he
    have hsize : ((m.toNat : ℤ) : ℚ) = |(m : ℚ)| := by
      rw [Int.toNat_of_nonneg h.le, abs_of_pos (by exact_mod_cast h)]
    rw [← Int.cast_natCast, hsize]
    exact hlt

end Rounding

section Sums

variable {a b : UnpackedFloat} {x y : Float}

/-- A sum below the midpoint is finite. -/
lemma isFinite_stored_add (ha : IsCanonical a) (hb : IsCanonical b) (hfa : a.isFinite = true)
    (hfb : b.isFinite = true) (hlt : |place a + place b| < overflow) :
    (stored (UnpackedFloat.add Format.binary64 a b)).isFinite = true := by
  rcases add_cases ha hb hfa hfb with ⟨hcanonical, hfinite, -⟩ | ⟨m, e, hmin, hadd, hplace⟩
  · rw [stored_eq hcanonical]
    exact hfinite
  · have hpow : (0 : ℚ) < 2 ^ e := by positivity
    rw [← hplace, abs_mul, abs_of_pos hpow] at hlt
    rw [hadd]
    exact isFinite_stored_normalize hmin hlt

/-- Finite numbers stay one unit in the last place below the next power of two. -/
lemma abs_place_le_of_isFinite (ha : IsCanonical a) (hfa : a.isFinite = true) :
    |place a| ≤ (2 ^ 53 - 1) * 2 ^ (971 : ℤ) := by
  cases a with
  | notANumber => cases hfa
  | infinity s => cases hfa
  | zero s =>
    rw [place_zero, abs_zero]
    exact mul_nonneg (by norm_num) (by positivity)
  | finite s m e hm =>
    obtain ⟨hlt, -, hmax, -⟩ := ha
    have hm : (m : ℚ) ≤ 2 ^ 53 - 1 := by
      have : m + 1 ≤ 2 ^ 53 := hlt
      have : (m : ℚ) + 1 ≤ 2 ^ 53 := by exact_mod_cast this
      linarith
    rw [abs_place_finite]
    exact mul_le_mul hm (zpow_le_zpow_right₀ one_le_two hmax) (by positivity) (by norm_num)

/-- The width of a tie is too small to carry a finite number to an infinity. -/
lemma nonFinite?_add_tieWindow (hx : Scalar.nonFinite? x = none) :
    Scalar.nonFinite? (x + Tableau.tieWindow) = none := by
  rw [nonFinite?_eq_none] at hx ⊢
  have hadd : unpacked (x + Tableau.tieWindow) =
    stored (UnpackedFloat.add Format.binary64 (unpacked x) (unpacked Tableau.tieWindow)) := rfl
  have hwidth : |value Tableau.tieWindow| ≤ 1 := by
    have hone : value 1 = 1 := place_unit .positive
    have hlow : value 0 ≤ value Tableau.tieWindow := (le_iff_value.1 (by decide +kernel)).2.2
    have hhigh : value Tableau.tieWindow ≤ value 1 := (le_iff_value.1 (by decide +kernel)).2.2
    rw [value_zero] at hlow
    rw [abs_of_nonneg hlow, ← hone]
    exact hhigh
  have hplace := abs_place_le_of_isFinite (isCanonical_unpacked x) hx
  rw [hadd]
  apply isFinite_stored_add (isCanonical_unpacked x) (isCanonical_unpacked _) hx
  · exact nonFinite?_eq_none.1 (by decide +kernel)
  · -- the largest finite number is half a unit of its last place below the midpoint
    have hscale : (2 : ℚ) ^ (971 : ℤ) = 2 * 2 ^ (970 : ℤ) := by
      rw [← zpow_one_add₀ two_ne_zero]
      norm_num
    have hlarge : (1 : ℚ) < 2 ^ (970 : ℤ) := one_lt_zpow₀ one_lt_two (by norm_num)
    unfold overflow
    calc |place (unpacked x) + place (unpacked Tableau.tieWindow)|
        ≤ |place (unpacked x)| + |value Tableau.tieWindow| := abs_add_le _ _
      _ ≤ (2 ^ 53 - 1) * 2 ^ (971 : ℤ) + 1 := add_le_add hplace hwidth
      _ < (2 ^ 53 - 1) * 2 ^ (971 : ℤ) + 2 ^ (970 : ℤ) := by gcongr
      _ = (2 ^ 54 - 1) * 2 ^ (970 : ℤ) := by
        rw [hscale]
        ring

end Sums

/-! ## Zeros -/

section Zeros

variable {x y c tol : Float}

/-- A finite number is a zero or a magnitude with a sign. -/
lemma unpacked_of_finite (h : Scalar.nonFinite? x = none) :
    (∃ s, unpacked x = .zero s) ∨ ∃ s m e hm, unpacked x = .finite s m e hm := by
  rw [nonFinite?_eq_none] at h
  cases hu : unpacked x with
  | zero s => exact .inl ⟨s, rfl⟩
  | finite s m e hm => exact .inr ⟨s, m, e, hm, rfl⟩
  | _ =>
    rw [hu] at h
    cases h

lemma beq_zero_iff : (x == 0) = true ↔ ∃ s, unpacked x = .zero s := by
  rw [beq_iff_value, isNaN_eq, value_zero]
  unfold value
  cases unpacked x with
  | notANumber => simp [UnpackedFloat.isNaN]
  | infinity s =>
    have hfar := far_pos.ne'
    cases s <;> simp [place, hfar]
  | zero s => exact ⟨fun _ => ⟨s, rfl⟩, fun _ => ⟨rfl, rfl, place_zero s⟩⟩
  | finite s m e hm =>
    have hplace : place (.finite s m e hm) ≠ 0 := mul_ne_zero (apply_ne_zero hm) (by positivity)
    simp [hplace]

lemma value_of_beq_zero (h : (x == 0) = true) : value x = 0 :=
  (beq_iff_value.1 h).2.2.trans value_zero

/-- Zeros stay zeros when a finite multiple of one is taken from another. -/
lemma beq_zero_sub_mul (hx : (x == 0) = true) (hc : Scalar.nonFinite? c = none) (hy : (y == 0) = true) :
    (x - c * y == 0) = true := by
  rw [beq_zero_iff] at hx hy ⊢
  obtain ⟨s, hs⟩ := hx
  obtain ⟨t, ht⟩ := hy
  have hproduct : ∃ r, unpacked (c * y) = .zero r := by
    have hmul : unpacked (c * y) = stored (UnpackedFloat.mul Format.binary64 (unpacked c) (unpacked y)) := rfl
    rw [hmul, ht]
    rcases unpacked_of_finite hc with ⟨r, hu⟩ | ⟨r, m, e, hm, hu⟩
    · rw [hu]
      exact ⟨r * t, stored_eq (a := .zero (r * t)) trivial⟩
    · rw [hu]
      exact ⟨r * t, stored_eq (a := .zero (r * t)) trivial⟩
  obtain ⟨r, hr⟩ := hproduct
  have hsub : unpacked (x - c * y) =
    stored (UnpackedFloat.sub Format.binary64 (unpacked x) (unpacked (c * y))) := rfl
  rw [hsub, hs, hr]
  cases s <;> cases r <;> exact ⟨_, rfl⟩

/-- Zeros stay zeros when they are divided by a finite number other than zero. -/
lemma beq_zero_div (hx : (x == 0) = true) (hc : Scalar.nonFinite? c = none) (hne : (c == 0) = false) :
    (x / c == 0) = true := by
  rw [beq_zero_iff] at hx ⊢
  obtain ⟨s, hs⟩ := hx
  have hdiv : unpacked (x / c) = stored (UnpackedFloat.div Format.binary64 (unpacked x) (unpacked c)) := rfl
  rw [hdiv, hs]
  rcases unpacked_of_finite hc with ⟨r, hu⟩ | ⟨r, m, e, hm, hu⟩
  · exact absurd (beq_zero_iff.2 ⟨r, hu⟩) (Bool.eq_false_iff.1 hne)
  · rw [hu]
    exact ⟨s / r, stored_eq (a := .zero (s / r)) trivial⟩

lemma value_neg (x : Float) : value (-x) = -value x := by
  have hneg : unpacked (-x) = (unpacked x).neg := unpacked_pack (isCanonical_neg (isCanonical_unpacked x))
  unfold value
  rw [hneg, place_neg]

/-- A zero is not below the opposite of a tolerance. -/
lemma not_lt_neg_of_beq_zero (hx : (x == 0) = true) (htol : 0 ≤ tol) : ¬ x < -tol := by
  intro hlt
  have hlt := (lt_iff_value.1 hlt).2.2
  have htol := (le_iff_value.1 htol).2.2
  rw [value_of_beq_zero hx, value_neg] at hlt
  rw [value_zero] at htol
  linarith

/-- A number above a tolerance is not zero. -/
lemma beq_zero_eq_false (htol : 0 ≤ tol) (h : tol < x.abs) : (x == 0) = false := by
  rw [Bool.eq_false_iff]
  intro hzero
  exact Vanishes.not_lt (.inr (value_of_beq_zero hzero)) htol h

end Zeros

/-! ## The positive infinity -/

section Infinity

variable {x y c tol : Float}

lemma unpacked_of_infinity (h : Scalar.nonFinite? x = some .infinity) : unpacked x = .infinity .positive := by
  rw [nonFinite?_eq] at h
  cases hu : unpacked x with
  | infinity s =>
    rw [hu] at h
    cases s with
    | negative => cases h
    | positive => rfl
  | _ =>
    rw [hu] at h
    cases h

lemma value_of_infinity (h : Scalar.nonFinite? x = some .infinity) : value x = far := by
  unfold value
  rw [unpacked_of_infinity h]
  rfl

lemma isNaN_of_infinity (h : Scalar.nonFinite? x = some .infinity) : Scalar.isNaN x = false := by
  unfold Scalar.isNaN
  rw [h]
  rfl

lemma isNaN_of_finite (h : Scalar.nonFinite? x = none) : Scalar.isNaN x = false := by
  unfold Scalar.isNaN
  rw [h]
  rfl

lemma value_lt_far (h : Scalar.nonFinite? x = none) : value x < far := by
  have hcanonical := isCanonical_unpacked x
  unfold value
  rcases unpacked_of_finite h with ⟨s, hu⟩ | ⟨s, m, e, hm, hu⟩
  · rw [hu, place_zero]
    exact far_pos
  · rw [hu] at hcanonical ⊢
    exact (place_lt_far hcanonical).2

/-- Nothing lies above the positive infinity. -/
lemma not_infinity_lt (h : Scalar.nonFinite? x = some .infinity) (y : Float) : ¬ x < y := by
  intro hlt
  have hlt := (lt_iff_value.1 hlt).2.2
  rw [value_of_infinity h] at hlt
  exact absurd (abs_le.1 (abs_place_le (isCanonical_unpacked y))).2 (not_le.2 hlt)

lemma lt_infinity (hx : Scalar.nonFinite? x = none) (hy : Scalar.nonFinite? y = some .infinity) : x < y := by
  rw [lt_iff_value, value_of_infinity hy]
  exact ⟨isNaN_of_finite hx, isNaN_of_infinity hy, value_lt_far hx⟩

lemma not_infinity_le (hx : Scalar.nonFinite? x = some .infinity) (hy : Scalar.nonFinite? y = none) : ¬ x ≤ y := by
  intro hle
  have hle := (le_iff_value.1 hle).2.2
  rw [value_of_infinity hx] at hle
  exact absurd (value_lt_far hy) (not_lt.2 hle)

/-- The kind of what is taken from the positive infinity decides what is left. -/
lemma nonFinite?_sub_of_infinity (hx : Scalar.nonFinite? x = some .infinity) (y : Float) :
    Scalar.nonFinite? (x - y) = NonFinite.sum (some .infinity) (kind (unpacked y).neg) := by
  have hsub : unpacked (x - y) = stored (UnpackedFloat.sub Format.binary64 (unpacked x) (unpacked y)) := rfl
  have hkind := kind_add (a := unpacked x) (b := (unpacked y).neg) (.inl (by rw [← nonFinite?_eq, hx]; nofun))
  rw [← nonFinite?_eq, hx] at hkind
  rw [nonFinite?_eq, hsub, sub_eq_add, stored_of_kind, hkind]
  rw [hkind]
  exact NonFinite.sum_ne_none (.inl nofun)

/-- What is taken from the positive infinity leaves it infinite or undefined. -/
lemma nonFinite?_infinity_sub (hx : Scalar.nonFinite? x = some .infinity) (h : Scalar.isNaN (x - y) = false) :
    Scalar.nonFinite? (x - y) = some .infinity := by
  unfold Scalar.isNaN at h
  rw [nonFinite?_sub_of_infinity hx] at h ⊢
  generalize kind (unpacked y).neg = k at h ⊢
  rcases k with _ | ⟨_ | _ | _⟩ <;> revert h <;> decide

lemma nonFinite?_infinity_sub_finite (hx : Scalar.nonFinite? x = some .infinity)
    (hy : Scalar.nonFinite? y = none) : Scalar.nonFinite? (x - y) = some .infinity := by
  rw [nonFinite?_sub_of_infinity hx]
  rcases unpacked_of_finite hy with ⟨s, hu⟩ | ⟨s, m, e, hm, hu⟩
  · rw [hu]
    rfl
  · rw [hu]
    rfl

lemma kind_of_isFinite {a : UnpackedFloat} (h : a.isFinite = true) : kind a = none := by
  cases a with
  | notANumber => cases h
  | infinity s => cases h
  | _ => rfl

/-- A stored magnitude is finite, or the infinity of its sign. -/
lemma kind_stored_finite (s : Sign) (m : ℕ) (e : ℤ) (hm : 0 < m) :
    kind (stored (.finite s m e hm)) = none ∨ kind (stored (.finite s m e hm)) = kind (.infinity s) := by
  unfold stored
  rw [unpack_pack_finite]
  by_cases he : 971 < e
  · rw [if_pos he]
    exact .inr rfl
  · rw [if_neg he]
    left
    have hfield : (if m.log2 = 52 then (e + 1075).toNat % 2 ^ 11 else 0) ≠ 2047 := by
      split
      · omega
      · omega
    exact kind_of_isFinite (place_ofFields hfield).1

lemma roundWithAccuracy_cases (s : Sign) (m : ℕ) (e : ℤ) (accuracy : UnpackedFloat.Accuracy) :
    UnpackedFloat.roundWithAccuracy Format.binary64 s m e accuracy = .zero s ∨ ∃ m' e' hm',
      UnpackedFloat.roundWithAccuracy Format.binary64 s m e accuracy = .finite s m' e' hm' := by
  unfold UnpackedFloat.roundWithAccuracy
  simp only
  split
  · exact .inl rfl
  · rename_i h
    exact .inr ⟨_, _, Nat.pos_of_ne_zero h, rfl⟩

/-- A finite number that is not below a tolerance is positive. -/
lemma pos_of_not_le (hx : Scalar.nonFinite? x = none) (htol : 0 ≤ tol) (h : ¬ x ≤ tol) : 0 < x := by
  obtain ⟨-, hdefined, hle⟩ := le_iff_value.1 htol
  rw [← not_lt_iff hdefined (isNaN_of_finite hx), not_not] at h
  exact lt_iff_value.2 ⟨rfl, isNaN_of_finite hx, hle.trans_lt (lt_iff_value.1 h).2.2⟩

lemma unpacked_of_pos (h : 0 < x) :
    unpacked x = .infinity .positive ∨ ∃ m e hm, unpacked x = .finite .positive m e hm := by
  obtain ⟨-, hdefined, hlt⟩ := lt_iff_value.1 h
  rw [isNaN_eq] at hdefined
  rw [value_zero] at hlt
  unfold value at hlt
  cases hu : unpacked x with
  | notANumber => rw [hu] at hdefined; cases hdefined
  | zero s =>
    rw [hu, place_zero] at hlt
    exact absurd hlt (lt_irrefl 0)
  | infinity s =>
    cases s with
    | negative =>
      rw [hu] at hlt
      exact absurd hlt (not_lt.2 (neg_nonpos.2 far_pos.le))
    | positive => exact .inl rfl
  | finite s m e hm =>
    cases s with
    | negative =>
      rw [hu] at hlt
      exact absurd hlt place_negative_lt.not_gt
    | positive => exact .inr ⟨m, e, hm, rfl⟩

lemma unpacked_of_pos_finite (hc : Scalar.nonFinite? c = none) (hpos : 0 < c) :
    ∃ m e hm, unpacked c = .finite .positive m e hm := by
  rcases unpacked_of_pos hpos with h | h
  · rw [nonFinite?_eq, h] at hc
    cases hc
  · exact h

lemma larger_zero_cases (x : Float) : larger x 0 = 0 ∨ (larger x 0 = x ∧ 0 < x) := by
  rw [larger_eq rfl]
  split
  · rename_i h
    exact .inr ⟨rfl, h⟩
  · exact .inl rfl

/-- The positive infinity over a positive finite number is the positive infinity. -/
lemma nonFinite?_infinity_ratio (hx : Scalar.nonFinite? x = some .infinity) (hc : Scalar.nonFinite? c = none)
    (hpos : 0 < c) : Scalar.nonFinite? (larger x 0 / c) = some .infinity := by
  have hmax : larger x 0 = x := by
    rw [larger_eq rfl, if_pos (lt_infinity rfl hx)]
  have hdiv : unpacked (x / c) = stored (UnpackedFloat.div Format.binary64 (unpacked x) (unpacked c)) := rfl
  obtain ⟨m, e, hm, hu⟩ := unpacked_of_pos_finite hc hpos
  rw [hmax, nonFinite?_eq, hdiv, unpacked_of_infinity hx, hu]
  show kind (stored (.infinity .positive)) = _
  rw [stored_eq (a := .infinity .positive) trivial]
  rfl

lemma beq_zero_of_pos (h : 0 < x) : (x == 0) = false := by
  rw [Bool.eq_false_iff]
  intro hzero
  have hlt := (lt_iff_value.1 h).2.2
  rw [value_zero, value_of_beq_zero hzero] at hlt
  exact absurd hlt (lt_irrefl 0)

/-- A number, counted as zero when negative, over a positive finite one is finite or the positive infinity. -/
lemma nonFinite?_ratio (x : Float) (hc : Scalar.nonFinite? c = none) (hpos : 0 < c) :
    Scalar.nonFinite? (larger x 0 / c) = none ∨ Scalar.nonFinite? (larger x 0 / c) = some .infinity := by
  rcases larger_zero_cases x with hmax | ⟨hmax, hx⟩
  · obtain ⟨s, hs⟩ := beq_zero_iff.1 (beq_zero_div (x := 0) (by rfl) hc (beq_zero_of_pos hpos))
    left
    rw [hmax, nonFinite?_eq, hs]
    rfl
  · rcases unpacked_of_pos hx with hu | ⟨m, e, hm, hu⟩
    · right
      exact nonFinite?_infinity_ratio (by rw [nonFinite?_eq, hu]; rfl) hc hpos
    · have hdiv : unpacked (x / c) = stored (UnpackedFloat.div Format.binary64 (unpacked x) (unpacked c)) := rfl
      obtain ⟨m', e', hm', hu'⟩ := unpacked_of_pos_finite hc hpos
      rw [hmax, nonFinite?_eq, hdiv, hu, hu']
      unfold UnpackedFloat.div
      simp only
      rcases roundWithAccuracy_cases (Sign.positive / Sign.positive) _ _ _ with h | ⟨m'', e'', hm'', h⟩
      · rw [h, stored_eq (a := .zero _) trivial]
        exact .inl rfl
      · rw [h]
        exact kind_stored_finite _ m'' e'' hm''

end Infinity

end IntegerProgram.Binary64
