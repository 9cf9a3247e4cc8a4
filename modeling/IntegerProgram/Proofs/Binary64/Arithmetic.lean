import Mathlib
import IntegerProgram.Proofs.Binary64.Packing

/-!
# Sums of binary64 numbers

What is exact in the rounded sum of two binary64 numbers.

* `isRounded_round`: a nonzero magnitude of the range does not round to zero.
* `round_whole`: a whole number of at most 53 bits rounds to itself.
* `stored_add`: a sum of finite numbers is defined, and zero only if it is exactly zero.
* `stored_add_unit`: one step between whole numbers of at most 53 bits is exact.
-/

namespace IntegerProgram.Binary64

open Float.Model (UnpackedFloat Format)
open Float.Model.UnpackedFloat (Sign ExtendedMantissa)

section Shift

/-- Shifting drops low digits. -/
lemma mantissa_shiftRight (em : ExtendedMantissa) (k : ℕ) : (em >>> k).mantissa = em.mantissa / 2 ^ k := by
  show (k.repeat ExtendedMantissa.shiftRightOne em).mantissa = _
  induction k with
  | zero => simp [Nat.repeat]
  | succ k ih =>
    show (k.repeat ExtendedMantissa.shiftRightOne em).mantissa / 2 = _
    rw [ih, Nat.div_div_eq_div_mul, pow_succ]

/-- Shifting is exact when the digits it drops are zero. -/
lemma shiftRight_exact (n k : ℕ) :
    (ExtendedMantissa.mk (n * 2 ^ k) false false) >>> k = ⟨n, false, false⟩ := by
  show k.repeat ExtendedMantissa.shiftRightOne _ = _
  induction k generalizing n with
  | zero => simp [Nat.repeat]
  | succ k ih =>
    rw [pow_succ', ← mul_assoc]
    show ExtendedMantissa.shiftRightOne (k.repeat ExtendedMantissa.shiftRightOne _) = _
    rw [ih]
    simp [ExtendedMantissa.shiftRightOne]

/-- Rounding keeps a significand or takes the next one. -/
lemma roundedMantissa_mem (em : ExtendedMantissa) :
    em.roundedMantissa = em.mantissa ∨ em.roundedMantissa = em.mantissa + 1 := by
  obtain ⟨m, roundBit, stickyBit⟩ := em
  cases roundBit with
  | false => cases stickyBit <;> exact .inl rfl
  | true =>
    cases stickyBit with
    | false =>
      show m + m % 2 = m ∨ m + m % 2 = m + 1
      omega
    | true => exact .inr rfl

/-- The exponent at which a magnitude is stored. -/
def target (m : ℕ) (e : ℤ) : ℤ :=
  max (m.log2 + 1 + e - 53) (-1074)

lemma shiftToTargetExponent_eq (m : ℕ) (e : ℤ) :
    UnpackedFloat.shiftToTargetExponent Format.binary64 m e .exact =
      (ExtendedMantissa.mk m false false >>> (target m e - e).toNat, e + (target m e - e).toNat) :=
  rfl

lemma log2_mul_two_pow {m : ℕ} (hm : 0 < m) (k : ℕ) : (m * 2 ^ k).log2 = m.log2 + k := by
  induction k with
  | zero => simp
  | succ k ih =>
    have hpos : m * 2 ^ k ≠ 0 := by positivity
    rw [pow_succ', mul_left_comm, Nat.log2_two_mul hpos, ih]
    rfl

lemma target_scaled {m : ℕ} (hm : 0 < m) (e : ℤ) (k : ℕ) : target (m * 2 ^ k) (e - k) = target m e := by
  unfold target
  rw [log2_mul_two_pow hm]
  push_cast
  congr 1
  ring

/-- A significand that fits stays where it is. -/
lemma target_le {m : ℕ} {e : ℤ} (hm : m < 2 ^ 53) (he : -1074 ≤ e) : target m e ≤ e := by
  have hlog : m.log2 < 53 := by
    rcases Nat.eq_zero_or_pos m with rfl | hpos
    · decide
    · exact (Nat.log2_lt hpos.ne').2 hm
  unfold target
  omega

end Shift

section Round

variable {s : Sign} {m : ℕ} {e : ℤ}

/-- Rounding in two steps: the first shift and the rounding leave a significand `r`, which may take one
more shift. -/
lemma roundWithAccuracy_eq {r : ℕ} {t : ℤ} (hround : (ExtendedMantissa.mk m false false >>>
      (target m e - e).toNat).roundedMantissa = r) (hexp : e + (target m e - e).toNat = t) :
    UnpackedFloat.roundWithAccuracy Format.binary64 s m e .exact =
      if h : r / 2 ^ (target r t - t).toNat = 0 then .zero s
      else .finite s (r / 2 ^ (target r t - t).toNat) (t + (target r t - t).toNat)
        (Nat.pos_of_ne_zero h) := by
  subst hround hexp
  unfold UnpackedFloat.roundWithAccuracy
  simp only [shiftToTargetExponent_eq, mantissa_shiftRight]

lemma round_eq (s : Sign) (m : ℕ) (e : ℤ) :
    UnpackedFloat.round Format.binary64 s m e =
      UnpackedFloat.roundWithAccuracy Format.binary64 s (m * 2 ^ (e - target m e).toNat)
        (e - (e - target m e).toNat) .exact := by
  rw [← Nat.shiftLeft_eq]
  rfl

/-- A rounded nonzero magnitude, as it is before the packing. -/
def IsRounded : UnpackedFloat → Prop
  | .finite _ m e _ => m < 2 ^ 53 ∧ -1074 ≤ e ∧ (2 ^ 52 ≤ m ∨ e = -1074)
  | _ => False

/-- A magnitude at its exponent, or one that carried into the next power of two. -/
lemma isRounded_carry {r : ℕ} {t : ℤ} (hpos : 0 < r) (hr : r ≤ 2 ^ 53) (ht : -1074 ≤ t)
    (hc : 2 ^ 52 ≤ r ∨ t = -1074) :
    IsRounded (if h : r / 2 ^ (target r t - t).toNat = 0 then .zero s
      else .finite s (r / 2 ^ (target r t - t).toNat) (t + (target r t - t).toNat)
        (Nat.pos_of_ne_zero h)) := by
  rcases hr.lt_or_eq with hr | rfl
  · have hshift : (target r t - t).toNat = 0 := by
      have := target_le hr ht
      omega
    simp only [hshift, pow_zero, Nat.div_one]
    rw [dif_neg hpos.ne']
    unfold IsRounded
    omega
  · have hshift : (target (2 ^ 53) t - t).toNat = 1 := by
      have hlog : (2 ^ 53 : ℕ).log2 = 53 := Nat.log2_two_pow
      unfold target
      rw [hlog]
      omega
    simp only [hshift]
    rw [dif_neg (by decide)]
    unfold IsRounded
    omega

lemma isRounded_roundWithAccuracy (hm : 0 < m) (hmin : -1074 ≤ e) (he : e ≤ target m e) :
    IsRounded (UnpackedFloat.roundWithAccuracy Format.binary64 s m e .exact) := by
  rw [roundWithAccuracy_eq rfl rfl]
  obtain ⟨hlow, hhigh⟩ := (Nat.log2_eq_iff hm.ne').1 rfl
  generalize hk : (target m e - e).toNat = k
  have hlog : m.log2 + 1 ≤ 53 + k := by
    unfold target at hk
    omega
  have hfits : m / 2 ^ k < 2 ^ 53 := by
    rw [Nat.div_lt_iff_lt_mul (by positivity), ← pow_add]
    exact hhigh.trans_le (Nat.pow_le_pow_right two_pos hlog)
  rcases Nat.eq_zero_or_pos k with rfl | hpos
  · -- nothing is dropped
    have hround : (ExtendedMantissa.mk m false false >>> 0).roundedMantissa = m := rfl
    rw [pow_zero, Nat.div_one] at hfits
    rw [hround]
    apply isRounded_carry hm hfits.le
    · omega
    · rcases le_or_gt (2 ^ 52) m with h | h
      · exact .inl h
      · have : m.log2 < 52 := (Nat.log2_lt hm.ne').2 h
        unfold target at he
        omega
  · -- some digits are dropped, so the significand is full, and rounding may carry it over
    have hexact : m.log2 = 52 + k := by
      unfold target at hk
      omega
    have hfull : 2 ^ 52 ≤ m / 2 ^ k := by
      rw [Nat.le_div_iff_mul_le (by positivity), ← pow_add, ← hexact]
      exact hlow
    have hmantissa : (ExtendedMantissa.mk m false false >>> k).mantissa = m / 2 ^ k :=
      mantissa_shiftRight _ k
    have hround := roundedMantissa_mem (ExtendedMantissa.mk m false false >>> k)
    rw [hmantissa] at hround
    apply isRounded_carry <;> omega

/-- A nonzero magnitude does not round to zero when its last digit is within the range. -/
lemma isRounded_round (hm : 0 < m) (he : -1074 ≤ e) :
    IsRounded (UnpackedFloat.round Format.binary64 s m e) := by
  rw [round_eq]
  apply isRounded_roundWithAccuracy (by positivity)
  · have : -1074 ≤ target m e := le_max_right _ _
    omega
  · rw [target_scaled hm]
    omega

/-- A rounding that drops only zeros is exact. -/
lemma roundWithAccuracy_exact {n k : ℕ} {t : ℤ} (hn : 0 < n) (hlt : n < 2 ^ 53) (ht : -1074 ≤ t)
    (htarget : target (n * 2 ^ k) (t - k) = t) :
    UnpackedFloat.roundWithAccuracy Format.binary64 s (n * 2 ^ k) (t - k) .exact = .finite s n t hn := by
  have hshift : (target (n * 2 ^ k) (t - k) - (t - k)).toNat = k := by omega
  have hstay : (target n t - t).toNat = 0 := by
    have := target_le hlt ht
    omega
  rw [roundWithAccuracy_eq (r := n) (t := t)]
  · simp only [hstay, pow_zero, Nat.div_one]
    rw [dif_neg hn.ne']
    simp
  · rw [hshift, shiftRight_exact]
    rfl
  · omega

lemma whole_lt {w : ℕ} (hlog : w.log2 < 53) : w * 2 ^ (52 - w.log2) < 2 ^ 53 := by
  calc w * 2 ^ (52 - w.log2) < 2 ^ (w.log2 + 1) * 2 ^ (52 - w.log2) :=
        Nat.mul_lt_mul_of_pos_right Nat.lt_log2_self (by positivity)
    _ = 2 ^ 53 := by
        rw [← pow_add]
        congr 1
        omega

/-- A whole number of at most 53 bits is rounded to itself, whatever its exponent. -/
lemma round_whole {w : ℕ} (hw : 0 < w) (hlt : w < 2 ^ 53) (j : ℕ) :
    UnpackedFloat.round Format.binary64 s (w * 2 ^ j) (-j) =
      .finite s (w * 2 ^ (52 - w.log2)) (w.log2 - 52) (by positivity) := by
  have hlog : w.log2 < 53 := (Nat.log2_lt hw.ne').2 hlt
  have htarget : target (w * 2 ^ j) (-j) = w.log2 - 52 := by
    unfold target
    rw [log2_mul_two_pow hw]
    omega
  -- `k` zeros are dropped, none when the exponent is lowered instead
  obtain ⟨k, hk⟩ : ∃ k : ℕ, k = j - (52 - w.log2) := ⟨_, rfl⟩
  have hdigits : w * 2 ^ j * 2 ^ (-j - target (w * 2 ^ j) (-j)).toNat = w * 2 ^ (52 - w.log2) * 2 ^ k := by
    rw [mul_assoc, mul_assoc, ← pow_add, ← pow_add]
    congr 2
    omega
  have hexp : -j - ((-j - target (w * 2 ^ j) (-j)).toNat : ℤ) = w.log2 - 52 - k := by omega
  rw [round_eq, hdigits, hexp]
  apply roundWithAccuracy_exact _ (whole_lt hlog)
  · omega
  · rw [target_scaled (by positivity)]
    unfold target
    rw [log2_mul_two_pow hw]
    omega

end Round

/-- A number after it went through the packing. -/
def stored (u : UnpackedFloat) : UnpackedFloat :=
  UnpackedFloat.unpack Format.binary64 (UnpackedFloat.pack Format.binary64 u)

section Sum

variable {s z : Sign} {e : ℤ} {a b : UnpackedFloat}

lemma stored_eq (h : IsCanonical a) : stored a = a :=
  unpack_pack h

lemma place_zero (s : Sign) : place (.zero s) = 0 := by
  simp [place]

lemma apply_ne_zero {m : ℕ} (hm : 0 < m) : (s.apply m : ℚ) ≠ 0 := by
  cases s <;> simp [Sign.apply, hm.ne']

/-- A rounded magnitude is stored as a nonzero number, if need be an infinity. -/
lemma stored_of_isRounded (h : IsRounded a) : place (stored a) ≠ 0 ∧ (stored a).isNaN = false := by
  cases a with
  | finite s m e hm =>
    obtain ⟨hlt, hmin, hc⟩ := h
    by_cases he : 971 < e
    · unfold stored
      rw [unpack_pack_finite, if_pos he]
      have hfar := far_pos.ne'
      cases s <;> simp [place, hfar, UnpackedFloat.isNaN]
    · have hcanonical : IsCanonical (.finite s m e hm) := ⟨hlt, hmin, not_lt.1 he, hc⟩
      rw [stored_eq hcanonical]
      have happly : (s.apply m : ℚ) ≠ 0 := apply_ne_zero hm
      constructor
      · exact mul_ne_zero happly (by positivity)
      · rfl
  | _ => cases h

lemma isRounded_normalize {m : ℤ} (hm : m ≠ 0) (he : -1074 ≤ e) :
    IsRounded (UnpackedFloat.normalize Format.binary64 m e z) := by
  unfold UnpackedFloat.normalize
  rcases lt_trichotomy m 0 with h | h | h
  · rw [compare_lt_iff_lt.2 h]
    exact isRounded_round (by omega) he
  · exact absurd h hm
  · rw [compare_gt_iff_gt.2 h]
    exact isRounded_round (by omega) he

lemma isCanonical_whole {w : ℕ} (hw : 0 < w) (hlt : w < 2 ^ 53) :
    IsCanonical (.finite s (w * 2 ^ (52 - w.log2)) (w.log2 - 52) (by positivity)) := by
  have hlog : w.log2 < 53 := (Nat.log2_lt hw.ne').2 hlt
  have hfull : 2 ^ 52 ≤ w * 2 ^ (52 - w.log2) := by
    calc 2 ^ 52 = 2 ^ w.log2 * 2 ^ (52 - w.log2) := by
          rw [← pow_add]
          congr 1
          omega
      _ ≤ w * 2 ^ (52 - w.log2) := Nat.mul_le_mul_right _ (Nat.log2_self_le hw.ne')
  refine ⟨whole_lt hlog, ?_, ?_, .inl hfull⟩
  · omega
  · omega

lemma place_whole {w : ℕ} (hw : 0 < w) (hlt : w < 2 ^ 53) :
    place (.finite s (w * 2 ^ (52 - w.log2)) (w.log2 - 52) (by positivity)) = s.apply w := by
  have hlog : w.log2 < 53 := (Nat.log2_lt hw.ne').2 hlt
  have hpow : ((2 : ℚ) ^ (52 - w.log2)) * 2 ^ ((w.log2 : ℤ) - 52) = 1 := by
    rw [← zpow_natCast, ← zpow_add₀ two_ne_zero]
    have : ((52 - w.log2 : ℕ) : ℤ) + ((w.log2 : ℤ) - 52) = 0 := by omega
    rw [this, zpow_zero]
  rw [place_finite, apply_eq_mul]
  push_cast
  rw [mul_assoc, hpow, mul_one]

/-- A whole number of at most 53 bits is normalized to itself. -/
lemma normalize_whole {w : ℤ} (hw : |w| < 2 ^ 53) (j : ℕ) {u : UnpackedFloat}
    (hu : UnpackedFloat.normalize Format.binary64 (w * 2 ^ j) (-j) z = u) :
    IsCanonical u ∧ u.isFinite = true ∧ place u = w := by
  have hlt : w.natAbs < 2 ^ 53 := by
    rw [Int.abs_eq_natAbs] at hw
    omega
  have hdigits : (w * 2 ^ j).natAbs = w.natAbs * 2 ^ j := by
    rw [Int.natAbs_mul, Int.natAbs_pow]
    rfl
  subst hu
  unfold UnpackedFloat.normalize
  rcases lt_trichotomy w 0 with h | rfl | h
  · have hneg : w * 2 ^ j < 0 := mul_neg_of_neg_of_pos h (by positivity)
    have hsize : (-(w * 2 ^ j)).toNat = w.natAbs * 2 ^ j := by omega
    have hpos : 0 < w.natAbs := by omega
    rw [compare_lt_iff_lt.2 hneg, hsize, round_whole hpos hlt]
    refine ⟨isCanonical_whole hpos hlt, rfl, ?_⟩
    rw [place_whole hpos hlt]
    congr 1
    show -(w.natAbs : ℤ) = w
    omega
  · rw [zero_mul]
    exact ⟨trivial, rfl, by simp [place]⟩
  · have hsign : 0 < w * 2 ^ j := by positivity
    have hsize : (w * 2 ^ j).toNat = w.natAbs * 2 ^ j := by omega
    have hpos : 0 < w.natAbs := by omega
    rw [compare_gt_iff_gt.2 hsign, hsize, round_whole hpos hlt]
    refine ⟨isCanonical_whole hpos hlt, rfl, ?_⟩
    rw [place_whole hpos hlt]
    congr 1
    show (w.natAbs : ℤ) = w
    omega

/-- A difference is the sum with the opposite. -/
lemma sub_eq_add (a b : UnpackedFloat) :
    UnpackedFloat.sub Format.binary64 a b = UnpackedFloat.add Format.binary64 a b.neg := by
  cases a <;> cases b <;> try rfl
  case finite s₁ m₁ e₁ h₁ s₂ m₂ e₂ h₂ =>
    unfold UnpackedFloat.sub UnpackedFloat.add UnpackedFloat.neg
    simp only
    congr 1
    cases s₂ with
    | negative => exact sub_neg_eq_add _ _
    | positive => rfl

lemma place_neg (a : UnpackedFloat) : place a.neg = -place a := by
  cases a with
  | notANumber => simp [place, UnpackedFloat.neg]
  | zero s => simp [place, UnpackedFloat.neg]
  | infinity s =>
    cases s with
    | negative => exact (neg_neg far).symm
    | positive => rfl
  | finite s m e hm =>
    cases s with
    | negative =>
      rw [place_negative, neg_neg]
      exact place_positive hm
    | positive =>
      rw [place_positive]
      exact place_negative hm

lemma isCanonical_neg (h : IsCanonical a) : IsCanonical a.neg := by
  cases a with
  | finite s m e hm => exact h
  | _ => trivial

lemma isFinite_neg (a : UnpackedFloat) : a.neg.isFinite = a.isFinite := by
  cases a <;> rfl

/-- A significand brought to a lower exponent. -/
lemma apply_shiftLeft (s : Sign) (m : ℕ) {e t : ℤ} (h : t ≤ e) :
    (s.apply (m <<< (e - t).toNat : ℕ) : ℚ) * 2 ^ t = s.apply m * 2 ^ e := by
  have hpow : (2 : ℚ) ^ (e - t).toNat * 2 ^ t = 2 ^ e := by
    rw [← zpow_natCast, ← zpow_add₀ two_ne_zero]
    congr 1
    omega
  rw [Nat.shiftLeft_eq]
  cases s with
  | negative =>
    simp only [Sign.apply]
    push_cast
    rw [neg_mul, mul_assoc, hpow, neg_mul]
  | positive =>
    simp only [Sign.apply]
    push_cast
    rw [mul_assoc, hpow]

/-- The sum of two finite numbers is the exact sum of their significands at the lower exponent,
normalized. -/
lemma add_finite (s₁ s₂ : Sign) {m₁ m₂ : ℕ} (e₁ e₂ : ℤ) (h₁ : 0 < m₁) (h₂ : 0 < m₂) :
    ∃ m : ℤ, UnpackedFloat.add Format.binary64 (.finite s₁ m₁ e₁ h₁) (.finite s₂ m₂ e₂ h₂) =
        UnpackedFloat.normalize Format.binary64 m (min e₁ e₂) .positive ∧
      (m * 2 ^ min e₁ e₂ : ℚ) = place (.finite s₁ m₁ e₁ h₁) + place (.finite s₂ m₂ e₂ h₂) := by
  refine ⟨_, rfl, ?_⟩
  push_cast
  rw [add_mul]
  congr 1
  · exact apply_shiftLeft _ _ (min_le_left _ _)
  · exact apply_shiftLeft _ _ (min_le_right _ _)

/-- A sum of finite numbers is exact where one of them is zero, and else it is the exact sum normalized. -/
lemma add_cases (ha : IsCanonical a) (hb : IsCanonical b) (hfa : a.isFinite = true)
    (hfb : b.isFinite = true) :
    (IsCanonical (UnpackedFloat.add Format.binary64 a b) ∧
      (UnpackedFloat.add Format.binary64 a b).isFinite = true ∧
      place (UnpackedFloat.add Format.binary64 a b) = place a + place b) ∨
    ∃ m e : ℤ, -1074 ≤ e ∧ UnpackedFloat.add Format.binary64 a b =
        UnpackedFloat.normalize Format.binary64 m e .positive ∧
      (m * 2 ^ e : ℚ) = place a + place b := by
  cases a with
  | notANumber => cases hfa
  | infinity s => cases hfa
  | zero s =>
    rw [place_zero, zero_add]
    cases b with
    | notANumber => cases hfb
    | infinity t => cases hfb
    | zero t =>
      left
      cases s <;> cases t <;> exact ⟨trivial, rfl, rfl⟩
    | finite t m e hm => exact .inl ⟨hb, rfl, rfl⟩
  | finite s₁ m₁ e₁ h₁ =>
    cases b with
    | notANumber => cases hfb
    | infinity t => cases hfb
    | zero t =>
      rw [place_zero, add_zero]
      exact .inl ⟨ha, rfl, rfl⟩
    | finite s₂ m₂ e₂ h₂ =>
      obtain ⟨m, hadd, hplace⟩ := add_finite s₁ s₂ e₁ e₂ h₁ h₂
      exact .inr ⟨m, _, le_min ha.2.1 hb.2.1, hadd, hplace⟩

lemma isNaN_of_isFinite (h : a.isFinite = true) : a.isNaN = false := by
  cases a with
  | notANumber => cases h
  | _ => rfl

/-- A sum of finite numbers is defined, and zero only if it is exactly zero. -/
lemma stored_add (ha : IsCanonical a) (hb : IsCanonical b) (hfa : a.isFinite = true)
    (hfb : b.isFinite = true) :
    (stored (UnpackedFloat.add Format.binary64 a b)).isNaN = false ∧
      (place (stored (UnpackedFloat.add Format.binary64 a b)) = 0 ↔ place a + place b = 0) := by
  rcases add_cases ha hb hfa hfb with ⟨hcanonical, hfinite, hplace⟩ | ⟨m, e, hmin, hadd, hplace⟩
  · rw [stored_eq hcanonical, hplace]
    exact ⟨isNaN_of_isFinite hfinite, Iff.rfl⟩
  · rw [hadd, ← hplace]
    rcases eq_or_ne m 0 with rfl | hm
    · rw [Int.cast_zero, zero_mul]
      show (stored (.zero .positive)).isNaN = false ∧ (place (stored (.zero .positive)) = 0 ↔ 0 = 0)
      have hcanonical : IsCanonical (.zero .positive) := trivial
      rw [stored_eq hcanonical, place_zero]
      exact ⟨rfl, Iff.rfl⟩
    · -- the last digit is within the range, so a nonzero sum does not round to zero
      obtain ⟨hne, hnan⟩ := stored_of_isRounded (isRounded_normalize (z := .positive) hm hmin)
      refine ⟨hnan, iff_of_false hne ?_⟩
      have : (m : ℚ) ≠ 0 := by exact_mod_cast hm
      exact mul_ne_zero this (by positivity)

/-- One, with either sign. -/
def unit (s : Sign) : UnpackedFloat :=
  .finite s (2 ^ 52) (-52) (by positivity)

lemma isCanonical_unit (s : Sign) : IsCanonical (unit s) := by
  refine ⟨?_, ?_, ?_, .inl le_rfl⟩ <;> norm_num

lemma place_unit (s : Sign) : place (unit s) = s.apply 1 := by
  have hpow : ((2 ^ 52 : ℕ) : ℚ) * 2 ^ (-52 : ℤ) = 1 := by norm_num
  unfold unit
  rw [place_finite, hpow, mul_one]

/-- One step from a whole number to a whole number of at most 53 bits is exact. -/
lemma stored_add_unit (ha : IsCanonical a) (hfa : a.isFinite = true) {w : ℤ}
    (hw : place a + s.apply 1 = w) (hlt : |w| < 2 ^ 53) :
    (stored (UnpackedFloat.add Format.binary64 a (unit s))).isFinite = true ∧
      place (stored (UnpackedFloat.add Format.binary64 a (unit s))) = w := by
  cases a with
  | notANumber => cases hfa
  | infinity s => cases hfa
  | zero t =>
    show (stored (unit s)).isFinite = true ∧ place (stored (unit s)) = w
    rw [stored_eq (isCanonical_unit s), place_unit, ← hw, place_zero, zero_add]
    exact ⟨rfl, rfl⟩
  | finite t m e hm =>
    obtain ⟨n, hadd, hplace⟩ :=
      add_finite t s e (-52) hm (Nat.two_pow_pos 52)
    -- at the lower exponent the significand of a whole sum is the sum with zeros behind it
    obtain ⟨j, hj⟩ : ∃ j : ℕ, min e (-52) = -j := ⟨(-min e (-52)).toNat, by omega⟩
    have hunit := place_unit s
    unfold unit at hunit ⊢
    rw [hunit, hw, hj, zpow_neg, zpow_natCast] at hplace
    have hn : n = w * 2 ^ j := by
      have hpow : (2 : ℚ) ^ j ≠ 0 := by positivity
      have : (n : ℚ) = w * 2 ^ j := by
        rw [← hplace, mul_assoc, inv_mul_cancel₀ hpow, mul_one]
      exact_mod_cast this
    rw [hn, hj] at hadd
    obtain ⟨hcanonical, hfinite, hplace⟩ := normalize_whole (z := .positive) hlt j rfl
    rw [hadd, stored_eq hcanonical]
    exact ⟨hfinite, hplace⟩

end Sum

end IntegerProgram.Binary64
