import Mathlib
import IntegerProgram.Proofs.Binary64.Arithmetic

/-!
# Whole binary64 numbers

Rounding to whole numbers by clearing the bits behind the point, in terms of the rational line.

* `truncate_spec`: the whole part lies within one of the number, on the side of zero.
* `value_floor`, `value_ceil`: the whole numbers next to a number with digits behind the point.
* `off_whole`, `isWhole_iff`: the distance to the nearest whole number tells the integers apart.

Together with the order of the places (`le_iff_value`) they make the binary64 numbers a lawful number
system with places on the rational line.
-/

namespace IntegerProgram.Binary64

open Float.Model (UnpackedFloat Format)
open Float.Model.UnpackedFloat (Sign)

section Digits

variable (n : ℕ) {k c : ℕ}

/-- Clearing low digits leaves the higher ones. -/
lemma div_mul_div (h : k ≤ c) : n / 2 ^ k * 2 ^ k / 2 ^ c = n / 2 ^ c := by
  obtain ⟨d, rfl⟩ := Nat.exists_eq_add_of_le h
  rw [pow_add, ← Nat.div_div_eq_div_mul, ← Nat.div_div_eq_div_mul,
    Nat.mul_div_cancel _ (Nat.two_pow_pos k)]

lemma div_mul_mod (h : k ≤ c) : n / 2 ^ k * 2 ^ k % 2 ^ c = n % 2 ^ c / 2 ^ k * 2 ^ k := by
  obtain ⟨d, rfl⟩ := Nat.exists_eq_add_of_le h
  rw [pow_add, mul_comm (2 ^ k), Nat.mul_mod_mul_right, Nat.mod_mul_left_div_self]

end Digits

section Fields

variable {s : Sign} {e f : ℕ}

/-- The place of the number with the given fields. -/
lemma place_ofFields (he : e ≠ 2047) : (ofFields s e f).isFinite = true ∧
    place (ofFields s e f) =
      s.apply ((if e = 0 then 0 else 2 ^ 52) + f : ℕ) * 2 ^ ((max e 1 : ℕ) - 1075 : ℤ) := by
  unfold ofFields
  rw [if_neg he]
  split
  · rename_i h0
    subst h0
    split
    · rename_i h
      subst h
      refine ⟨rfl, ?_⟩
      cases s <;> simp [place, Sign.apply]
    · exact ⟨rfl, by simp [place]⟩
  · refine ⟨rfl, ?_⟩
    have : max e 1 = e := by omega
    simp [place, this]

end Fields

lemma unpacked_eq_fields (x : Float) :
    unpacked x = ofFields (if x.toBits.toNat / 2 ^ 63 % 2 = 0 then .positive else .negative)
      (exponentField x) (fractionField x) := by
  rw [unpacked_eq, exponentField_eq, fractionField_eq]
  rfl

/-- The sign of a number. -/
def sign (x : Float) : Sign :=
  if x.toBits.toNat / 2 ^ 63 % 2 = 0 then .positive else .negative

/-- The significand of a finite number, with its leading bit. -/
def significand (x : Float) : ℕ :=
  (if exponentField x = 0 then 0 else 2 ^ 52) + fractionField x

section Truncate

variable {x : Float}

lemma fractionField_lt (x : Float) : fractionField x < 2 ^ 52 := by
  rw [fractionField_eq]
  exact Nat.mod_lt _ (by positivity)

lemma significand_lt (x : Float) : significand x < 2 ^ 53 := by
  have := fractionField_lt x
  unfold significand
  split <;> omega

/-- The value of a finite number. -/
lemma value_eq (h : exponentField x ≠ 2047) : (unpacked x).isFinite = true ∧
    value x = (sign x).apply (significand x) * 2 ^ ((max (exponentField x) 1 : ℕ) - 1075 : ℤ) := by
  unfold value
  rw [unpacked_eq_fields]
  exact place_ofFields h

/-- Below one a number is cut to zero. -/
lemma unpacked_truncate_of_lt (h : exponentField x < 1023) :
    ∃ s, unpacked (truncate x) = .zero s := by
  unfold truncate
  rw [if_pos (show exponentField x < bias from h), unpacked_ofBits, UInt64.toNat_and]
  have hand : x.toBits.toNat &&& 2 ^ 63 = (x.toBits.toNat.testBit 63).toNat * 2 ^ 63 :=
    Nat.and_two_pow _ _
  show ∃ s, ofDigits (x.toBits.toNat &&& 2 ^ 63) = .zero s
  rw [hand]
  cases x.toBits.toNat.testBit 63 with
  | false => exact ⟨.positive, rfl⟩
  | true => exact ⟨.negative, rfl⟩

/-- From one on the digits behind the point are cleared. -/
lemma unpacked_truncate (hlow : 1023 ≤ exponentField x) (hhigh : exponentField x < 1075) :
    unpacked (truncate x) = ofFields (sign x) (exponentField x)
      (fractionField x / 2 ^ (1075 - exponentField x) * 2 ^ (1075 - exponentField x)) := by
  obtain ⟨k, hk⟩ : ∃ k, 1075 - exponentField x = k := ⟨_, rfl⟩
  have hshift : k.toUInt64.toNat = k := by
    show k % 2 ^ 64 = k
    omega
  -- fewer than 64 digits are shifted out and zeros shifted in
  have hdigits : ((x.toBits >>> k.toUInt64) <<< k.toUInt64).toNat = x.toBits.toNat / 2 ^ k * 2 ^ k := by
    have hlt : x.toBits.toNat < 2 ^ 64 := x.toBits.toNat_lt
    have hmod : k % 64 = k := by omega
    rw [UInt64.toNat_shiftLeft, UInt64.toNat_shiftRight, hshift, hmod, Nat.shiftRight_eq_div_pow,
      Nat.shiftLeft_eq]
    exact Nat.mod_eq_of_lt ((Nat.div_mul_le_self _ _).trans_lt hlt)
  unfold truncate
  rw [if_neg (show ¬ exponentField x < bias from not_lt.2 hlow),
    if_neg (show ¬ bias + fractionBits ≤ exponentField x from not_le.2 hhigh)]
  show unpacked (Float.ofBits ((x.toBits >>> (1075 - exponentField x).toUInt64) <<<
    (1075 - exponentField x).toUInt64)) = _
  rw [hk, unpacked_ofBits, hdigits]
  unfold ofDigits sign
  rw [exponentField_eq, fractionField_eq, div_mul_div _ (by omega), div_mul_div _ (by omega),
    div_mul_mod _ (by omega)]

/-- The number of binary digits behind the point. -/
def places (x : Float) : ℕ :=
  1075 - max (exponentField x) 1

/-- A number with digits behind the point is its significand over a power of two. -/
lemma value_eq_div (h : exponentField x < 1075) :
    value x = (sign x).apply 1 * (significand x / 2 ^ places x) := by
  obtain ⟨-, hvalue⟩ := value_eq (x := x) (by omega)
  have hexp : ((max (exponentField x) 1 : ℕ) - 1075 : ℤ) = -places x := by
    unfold places
    omega
  rw [hvalue, hexp, zpow_neg, zpow_natCast, apply_eq_mul, mul_assoc, div_eq_mul_inv]

/-- Such a number is cut to the whole part of its magnitude, with its sign. -/
lemma value_truncate (h : exponentField x < 1075) :
    (unpacked (truncate x)).isFinite = true ∧
      value (truncate x) = (sign x).apply 1 * (significand x / 2 ^ places x : ℕ) := by
  unfold value
  rcases lt_or_ge (exponentField x) 1023 with hlow | hlow
  · -- below one only a zero is left, and the significand has fewer digits than are cut off
    obtain ⟨s, hs⟩ := unpacked_truncate_of_lt hlow
    have hsmall : significand x / 2 ^ places x = 0 := by
      apply Nat.div_eq_of_lt
      have : 2 ^ 53 ≤ 2 ^ places x := by
        apply Nat.pow_le_pow_right two_pos
        unfold places
        omega
      exact (significand_lt x).trans_le this
    rw [hs, hsmall, place_zero, Nat.cast_zero, mul_zero]
    exact ⟨rfl, rfl⟩
  · have hplaces : 1075 - exponentField x = places x := by
      unfold places
      omega
    have hbits : 2 ^ (52 - places x) * 2 ^ places x = 2 ^ 52 := by
      rw [← pow_add]
      congr 1
      omega
    -- the leading digit is not stored, and lies above those that are cleared
    have hcleared : 2 ^ 52 + fractionField x / 2 ^ places x * 2 ^ places x =
        significand x / 2 ^ places x * 2 ^ places x := by
      unfold significand
      rw [if_neg (by omega), add_comm, add_comm (2 ^ 52) (fractionField x), ← hbits,
        Nat.add_mul_div_right _ _ (Nat.two_pow_pos _), add_mul]
    have hpow : (2 : ℚ) ^ places x ≠ 0 := by positivity
    have hexp : ((max (exponentField x) 1 : ℕ) - 1075 : ℤ) = -places x := by omega
    obtain ⟨hfinite, hplace⟩ := place_ofFields (s := sign x) (e := exponentField x)
      (f := fractionField x / 2 ^ places x * 2 ^ places x) (by omega)
    rw [if_neg (by omega), hcleared, hexp, zpow_neg, zpow_natCast, apply_eq_mul, mul_assoc] at hplace
    rw [unpacked_truncate hlow h, hplaces, hplace]
    refine ⟨hfinite, ?_⟩
    push_cast
    rw [mul_assoc, mul_inv_cancel₀ hpow, mul_one]

/-- The whole part lies within one of the number, on the side of zero. -/
lemma truncate_spec (h : exponentField x < 1075) :
    (unpacked (truncate x)).isFinite = true ∧ ∃ k : ℤ, |k| < 2 ^ 52 ∧ value (truncate x) = k ∧
      ((k ≤ value x ∧ value x < k + 1) ∨ (value x ≤ k ∧ k - 1 < value x)) := by
  obtain ⟨hfinite, hcut⟩ := value_truncate h
  have hvalue := value_eq_div h
  have hlow : ((significand x / 2 ^ places x : ℕ) : ℚ) ≤ significand x / 2 ^ places x := by
    have := Nat.cast_div_le (α := ℚ) (m := significand x) (n := 2 ^ places x)
    push_cast at this
    exact this
  have hhigh : (significand x / 2 ^ places x : ℚ) < (significand x / 2 ^ places x : ℕ) + 1 := by
    rw [div_lt_iff₀ (by positivity), add_mul, one_mul]
    exact_mod_cast Nat.lt_div_mul_add (Nat.two_pow_pos (places x))
  have hw : significand x / 2 ^ places x < 2 ^ 52 := by
    have hone : 2 ^ 1 ≤ 2 ^ places x := by
      apply Nat.pow_le_pow_right two_pos
      unfold places
      omega
    have := significand_lt x
    rw [Nat.div_lt_iff_lt_mul (by positivity)]
    omega
  generalize significand x / 2 ^ places x = w at *
  generalize (significand x / 2 ^ places x : ℚ) = q at *
  rw [hvalue, hcut]
  have hw' : |(w : ℤ)| < 2 ^ 52 := by
    rw [Nat.abs_cast]
    exact_mod_cast hw
  cases sign x with
  | negative =>
    refine ⟨hfinite, -w, by rwa [abs_neg], ?_, .inr ⟨?_, ?_⟩⟩ <;> simp [Sign.apply]
    · exact hlow
    · linarith
  | positive =>
    refine ⟨hfinite, w, hw', ?_, .inl ⟨?_, ?_⟩⟩ <;> simp [Sign.apply]
    · exact hlow
    · exact hhigh

end Truncate

section Step

variable {t : Float} {k : ℤ}

lemma defined_of_isFinite {x : Float} (h : (unpacked x).isFinite = true) : Scalar.isNaN x = false := by
  rw [isNaN_eq]
  exact isNaN_of_isFinite h

/-- The next whole number is exact. -/
lemma value_add_one (hfinite : (unpacked t).isFinite = true) (ht : value t = k) (hk : |k| < 2 ^ 52) :
    (unpacked (t + 1)).isFinite = true ∧ value (t + 1) = (k + 1 : ℤ) := by
  apply stored_add_unit (isCanonical_unpacked t) hfinite
  · show value t + (1 : ℤ) = _
    rw [ht]
    push_cast
    rfl
  · rw [abs_lt] at hk ⊢
    omega

/-- The whole number before is exact. -/
lemma value_sub_one (hfinite : (unpacked t).isFinite = true) (ht : value t = k) (hk : |k| < 2 ^ 52) :
    (unpacked (t - 1)).isFinite = true ∧ value (t - 1) = (k - 1 : ℤ) := by
  have hsub : unpacked (t - 1) =
      stored (UnpackedFloat.add Format.binary64 (unpacked t) (unit .negative)) := by
    show stored (UnpackedFloat.sub Format.binary64 (unpacked t) (unpacked 1)) = _
    rw [sub_eq_add]
    rfl
  unfold value
  rw [hsub]
  apply stored_add_unit (isCanonical_unpacked t) hfinite
  · show value t + (-1 : ℤ) = _
    rw [ht]
    push_cast
    ring
  · rw [abs_lt] at hk ⊢
    omega

end Step

section Whole

variable {x : Float}

lemma le_iff_of_isFinite {y : Float} (hx : (unpacked x).isFinite = true)
    (hy : (unpacked y).isFinite = true) : x ≤ y ↔ value x ≤ value y := by
  rw [le_iff_value]
  simp [defined_of_isFinite hx, defined_of_isFinite hy]

/-- The largest whole number below. -/
lemma value_floor (h : exponentField x < 1075) :
    (unpacked (floor x)).isFinite = true ∧ value (floor x) = ⌊value x⌋ := by
  have hx := (value_eq (x := x) (by omega)).1
  obtain ⟨ht, k, hk, hvalue, hside⟩ := truncate_spec h
  by_cases hle : truncate x ≤ x
  · have hfloor : floor x = truncate x := if_pos hle
    rw [le_iff_of_isFinite ht hx, hvalue] at hle
    rw [hfloor, hvalue]
    refine ⟨ht, ?_⟩
    rw [eq_comm]
    congr 1
    rw [Int.floor_eq_iff]
    rcases hside with hside | hside
    · exact hside
    · constructor <;> linarith
  · -- a negative number is cut upward
    have hfloor : floor x = truncate x - 1 := if_neg hle
    rw [le_iff_of_isFinite ht hx, hvalue, not_le] at hle
    obtain ⟨hfinite, hstep⟩ := value_sub_one ht hvalue hk
    rw [hfloor, hstep]
    refine ⟨hfinite, ?_⟩
    rw [eq_comm]
    congr 1
    rw [Int.floor_eq_iff]
    push_cast
    rcases hside with hside | hside <;> constructor <;> linarith

/-- The smallest whole number above. -/
lemma value_ceil (h : exponentField x < 1075) :
    (unpacked (ceil x)).isFinite = true ∧ value (ceil x) = ⌈value x⌉ := by
  have hx := (value_eq (x := x) (by omega)).1
  obtain ⟨ht, k, hk, hvalue, hside⟩ := truncate_spec h
  by_cases hle : x ≤ truncate x
  · have hceil : ceil x = truncate x := if_pos hle
    rw [le_iff_of_isFinite hx ht, hvalue] at hle
    rw [hceil, hvalue]
    refine ⟨ht, ?_⟩
    rw [eq_comm]
    congr 1
    rw [Int.ceil_eq_iff]
    rcases hside with hside | hside <;> constructor <;> linarith
  · -- a positive number is cut downward
    have hceil : ceil x = truncate x + 1 := if_neg hle
    rw [le_iff_of_isFinite hx ht, hvalue, not_le] at hle
    obtain ⟨hfinite, hstep⟩ := value_add_one ht hvalue hk
    rw [hceil, hstep]
    refine ⟨hfinite, ?_⟩
    rw [eq_comm]
    congr 1
    rw [Int.ceil_eq_iff]
    push_cast
    rcases hside with hside | hside <;> constructor <;> linarith

/-- The nearest whole number is whole. -/
lemma exists_value_round (h : exponentField x < 1075) :
    (unpacked (round x)).isFinite = true ∧ ∃ k : ℤ, value (round x) = k := by
  obtain ⟨ht, k, hk, hvalue, -⟩ := truncate_spec h
  unfold round
  simp only
  split
  · split
    · obtain ⟨hfinite, hstep⟩ := value_sub_one ht hvalue hk
      exact ⟨hfinite, _, hstep⟩
    · obtain ⟨hfinite, hstep⟩ := value_add_one ht hvalue hk
      exact ⟨hfinite, _, hstep⟩
  · exact ⟨ht, _, hvalue⟩

/-- A difference of finite numbers is defined, and zero only between equals. -/
lemma value_sub {y : Float} (hx : (unpacked x).isFinite = true) (hy : (unpacked y).isFinite = true) :
    Scalar.isNaN (x - y) = false ∧ (value (x - y) = 0 ↔ value x = value y) := by
  have hsub : unpacked (x - y) =
      stored (UnpackedFloat.add Format.binary64 (unpacked x) (unpacked y).neg) := by
    rw [← sub_eq_add]
    rfl
  have hneg : (unpacked y).neg.isFinite = true := by rwa [isFinite_neg]
  obtain ⟨hdefined, hzero⟩ :=
    stored_add (isCanonical_unpacked x) (isCanonical_neg (isCanonical_unpacked y)) hx hneg
  rw [isNaN_eq, hsub]
  refine ⟨hdefined, ?_⟩
  unfold value
  rw [hsub, hzero, place_neg, ← sub_eq_add_neg, sub_eq_zero]

lemma unpacked_abs (x : Float) : unpacked x.abs = (unpacked x).abs := by
  have hcanonical : IsCanonical (unpacked x).abs := by
    have := isCanonical_unpacked x
    cases hu : unpacked x with
    | finite s m e hm =>
      rw [hu] at this
      exact this
    | _ => trivial
  exact unpacked_pack hcanonical

lemma isNaN_abs (x : Float) : Scalar.isNaN x.abs = Scalar.isNaN x := by
  rw [isNaN_eq, isNaN_eq, unpacked_abs]
  cases unpacked x <;> rfl

lemma value_abs (x : Float) : value x.abs = |value x| := by
  unfold value
  rw [unpacked_abs]
  cases unpacked x with
  | notANumber => simp [place, UnpackedFloat.abs]
  | zero s => simp [place, UnpackedFloat.abs]
  | infinity s =>
    have hfar := abs_of_pos far_pos
    cases s with
    | negative =>
      show far = |-far|
      rw [abs_neg, hfar]
    | positive => exact hfar.symm
  | finite s m e hm => exact (place_positive hm).trans abs_place_finite.symm

/-- An infinity or an undefined number minus itself is undefined. -/
lemma sub_self_of_not_isFinite (h : (unpacked x).isFinite = false) : Scalar.isNaN (x - x) = true := by
  rw [isNaN_eq]
  show (stored (UnpackedFloat.sub Format.binary64 (unpacked x) (unpacked x))).isNaN = true
  cases hu : unpacked x with
  | notANumber => rfl
  | infinity s => cases s <;> rfl
  | zero s =>
    rw [hu] at h
    cases h
  | finite s m e hm =>
    rw [hu] at h
    cases h

end Whole

section Fractionality

variable {x tol : Float}

lemma value_zero : value 0 = 0 :=
  place_zero .positive

/-- A vanishing difference: undefined or zero. -/
def Vanishes (d : Float) : Prop :=
  Scalar.isNaN d = true ∨ value d = 0

lemma vanishes_sub_self (x : Float) : Vanishes (x - x) := by
  cases hx : (unpacked x).isFinite with
  | false => exact .inl (sub_self_of_not_isFinite hx)
  | true => exact .inr ((value_sub hx hx).2.2 rfl)

/-- A vanishing difference is not above a tolerance. -/
lemma Vanishes.not_lt {d : Float} (hd : Vanishes d) (htol : 0 ≤ tol) : ¬ tol < d.abs := by
  intro hlt
  obtain ⟨-, hdefined, hlt⟩ := lt_iff_value.1 hlt
  obtain ⟨-, -, htol⟩ := le_iff_value.1 htol
  rw [isNaN_abs] at hdefined
  rw [value_abs] at hlt
  rw [value_zero] at htol
  rcases hd with hd | hd
  · rw [hd] at hdefined
    cases hdefined
  · rw [hd, abs_zero] at hlt
    linarith

lemma value_half_pos : 0 < value 0.5 := by
  have hhalf : unpacked 0.5 = .finite .positive (2 ^ 52) (-53) (by positivity) := rfl
  unfold value
  rw [hhalf, place_positive]
  positivity

/-- A number whose difference to its whole part vanishes is rounded to it. -/
lemma round_of_vanishes (hd : Vanishes (x - truncate x)) : round x = truncate x := by
  apply if_neg
  intro hle
  obtain ⟨-, hdefined, hle⟩ := le_iff_value.1 hle
  rw [isNaN_abs] at hdefined
  rw [value_abs] at hle
  rcases hd with hd | hd
  · rw [hd] at hdefined
    cases hdefined
  · rw [hd, abs_zero] at hle
    exact absurd value_half_pos (not_lt.2 hle)

/-- A number without digits behind the point is its own whole part. -/
lemma truncate_of_le (h : 1075 ≤ exponentField x) : truncate x = x := by
  have hlow : ¬ exponentField x < bias := by
    show ¬ exponentField x < 1023
    omega
  unfold truncate
  rw [if_neg hlow, if_pos (show bias + fractionBits ≤ exponentField x from h)]

/-- Such a number is its own nearest whole number. -/
lemma round_of_le (h : 1075 ≤ exponentField x) : round x = x := by
  have ht := truncate_of_le h
  rw [round_of_vanishes, ht]
  rw [ht]
  exact vanishes_sub_self x

/-- A whole value is its own whole part. -/
lemma value_truncate_of_whole (h : exponentField x < 1075) {k : ℤ} (hk : value x = k) :
    value (truncate x) = value x := by
  obtain ⟨-, i, -, hi, hside⟩ := truncate_spec h
  have : i = k := by
    rw [hk] at hside
    norm_cast at hside
    omega
  rw [hi, hk, this]

/-- A value off the whole numbers has digits behind the point. -/
lemma off_whole (htol : 0 ≤ tol) (h : tol < Scalar.fractionality x) :
    exponentField x < 1075 ∧ ∀ k : ℤ, value x ≠ k := by
  have hlarge : ¬ Vanishes (x - truncate x) := by
    intro hd
    have hfraction : Scalar.fractionality x = (x - truncate x).abs := by
      show (x - round x).abs = _
      rw [round_of_vanishes hd]
    rw [hfraction] at h
    exact hd.not_lt htol h
  have hlt : exponentField x < 1075 := by
    by_contra hge
    rw [truncate_of_le (not_lt.1 hge)] at hlarge
    exact hlarge (vanishes_sub_self x)
  refine ⟨hlt, ?_⟩
  intro k hk
  have hx := (value_eq (x := x) (by omega)).1
  have ht := (value_truncate hlt).1
  exact hlarge (.inr ((value_sub hx ht).2.2 (value_truncate_of_whole hlt hk).symm))

lemma exponentField_ne (h : (unpacked x).isFinite = true) : exponentField x ≠ 2047 := by
  intro he
  rw [unpacked_eq_fields, he] at h
  unfold ofFields at h
  rw [if_pos rfl] at h
  split at h <;> cases h

/-- Every finite number without digits behind the point is an integer. -/
lemma exists_value_of_le (hx : (unpacked x).isFinite = true) (h : 1075 ≤ exponentField x) :
    ∃ k : ℤ, value x = k := by
  obtain ⟨-, hvalue⟩ := value_eq (exponentField_ne hx)
  obtain ⟨d, hd⟩ : ∃ d : ℕ, ((max (exponentField x) 1 : ℕ) - 1075 : ℤ) = d :=
    ⟨max (exponentField x) 1 - 1075, by omega⟩
  refine ⟨(sign x).apply (significand x) * 2 ^ d, ?_⟩
  rw [hvalue, hd, zpow_natCast]
  push_cast
  rfl

/-- The whole values are the finite ones that stand for integers. -/
lemma isWhole_iff : Scalar.IsWhole x ↔ (unpacked x).isFinite = true ∧ ∃ k : ℤ, value x = k := by
  have hdistance : Scalar.IsWhole x ↔
      Scalar.isNaN (x - round x) = false ∧ value (x - round x) = 0 := by
    show (x - round x).abs ≤ 0 ↔ _
    rw [le_iff_value, isNaN_abs, value_abs, value_zero, abs_nonpos_iff]
    exact and_congr_right fun _ => and_iff_right rfl
  rw [hdistance]
  rcases lt_or_ge (exponentField x) 1075 with hlt | hge
  · have hx := (value_eq (x := x) (by omega)).1
    obtain ⟨hround, k, hk⟩ := exists_value_round hlt
    obtain ⟨hdefined, hzero⟩ := value_sub hx hround
    constructor
    · rintro ⟨-, h⟩
      exact ⟨hx, k, (hzero.1 h).trans hk⟩
    · rintro ⟨-, k, hk⟩
      have htruncate := value_truncate_of_whole hlt hk
      have hvanishes : Vanishes (x - truncate x) :=
        .inr ((value_sub hx (value_truncate hlt).1).2.2 htruncate.symm)
      refine ⟨hdefined, hzero.2 ?_⟩
      rw [round_of_vanishes hvanishes, htruncate]
  · -- without digits behind the point a number is its own rounding
    rw [round_of_le hge]
    cases hx : (unpacked x).isFinite with
    | false => simp [sub_self_of_not_isFinite hx]
    | true =>
      obtain ⟨hdefined, hzero⟩ := value_sub hx hx
      exact iff_of_true ⟨hdefined, hzero.2 rfl⟩ ⟨rfl, exists_value_of_le hx hge⟩

/-- The whole values are defined and stand for integers. -/
lemma exists_of_isWhole (h : Scalar.IsWhole x) : Scalar.isNaN x = false ∧ ∃ k : ℤ, value x = k := by
  obtain ⟨hx, hk⟩ := isWhole_iff.1 h
  exact ⟨defined_of_isFinite hx, hk⟩

end Fractionality

section Extremes

variable {a b : Float}

lemma larger_eq (hb : Scalar.isNaN b = false) : larger a b = if b < a then a else b := by
  have hb : b.isNaN = false := by
    rw [isNaN_eq] at hb
    exact hb
  unfold larger
  rw [hb, Bool.false_or]
  simp only [decide_eq_true_eq]

lemma smaller_eq (hb : Scalar.isNaN b = false) : smaller a b = if a < b then a else b := by
  have hb : b.isNaN = false := by
    rw [isNaN_eq] at hb
    exact hb
  unfold smaller
  rw [hb, Bool.false_or]
  simp only [decide_eq_true_eq]

/-- A defined number that is not below another one is above it. -/
lemma not_lt_iff (ha : Scalar.isNaN a = false) (hb : Scalar.isNaN b = false) : ¬ a < b ↔ b ≤ a := by
  rw [lt_iff_value, le_iff_value]
  simp [ha, hb]

lemma le_trans {c : Float} (hab : a ≤ b) (hbc : b ≤ c) : a ≤ c := by
  obtain ⟨ha, -, hab⟩ := le_iff_value.1 hab
  obtain ⟨-, hc, hbc⟩ := le_iff_value.1 hbc
  exact le_iff_value.2 ⟨ha, hc, hab.trans hbc⟩

lemma le_of_lt (h : a < b) : a ≤ b := by
  obtain ⟨ha, hb, h⟩ := lt_iff_value.1 h
  exact le_iff_value.2 ⟨ha, hb, h.le⟩

lemma larger_le_iff (ha : Scalar.isNaN a = false) (hb : Scalar.isNaN b = false) (v : Float) :
    larger a b ≤ v ↔ a ≤ v ∧ b ≤ v := by
  rw [larger_eq hb]
  split
  · rename_i hlt
    exact ⟨fun h => ⟨h, le_trans (le_of_lt hlt) h⟩, And.left⟩
  · rename_i hlt
    rw [not_lt_iff hb ha] at hlt
    exact ⟨fun h => ⟨le_trans hlt h, h⟩, And.right⟩

lemma le_smaller_iff (ha : Scalar.isNaN a = false) (hb : Scalar.isNaN b = false) (v : Float) :
    v ≤ smaller a b ↔ v ≤ a ∧ v ≤ b := by
  rw [smaller_eq hb]
  split
  · rename_i hlt
    exact ⟨fun h => ⟨h, le_trans h (le_of_lt hlt)⟩, And.left⟩
  · rename_i hlt
    rw [not_lt_iff ha hb] at hlt
    exact ⟨fun h => ⟨le_trans h hlt, h⟩, And.right⟩

/-- The negative infinity lies below all defined numbers. -/
lemma negInfinity_le {l : Float} (hl : unpacked l = .infinity .negative) (v : Float)
    (hv : Scalar.isNaN v = false) : l ≤ v := by
  have hdefined : Scalar.isNaN l = false := by
    rw [isNaN_eq, hl]
    rfl
  refine le_iff_value.2 ⟨hdefined, hv, ?_⟩
  unfold value
  rw [hl]
  exact (abs_le.1 (abs_place_le (isCanonical_unpacked v))).1

end Extremes

instance : LawfulScalar Float where
  defined_of_le h := ⟨(le_iff_value.1 h).1, (le_iff_value.1 h).2.1⟩
  max_le_iff := larger_le_iff
  le_min_iff := le_smaller_iff
  defined_max ha hb := by
    show Scalar.isNaN (larger _ _) = false
    rw [larger_eq hb]
    split
    · exact ha
    · exact hb
  defined_min ha hb := by
    show Scalar.isNaN (smaller _ _) = false
    rw [smaller_eq hb]
    split
    · exact ha
    · exact hb
  bottom_le l hl := by
    cases hl
    exact ⟨rfl, negInfinity_le rfl⟩
  not_lt h₁ h₂ h := by
    have h₁ := (le_iff_value.1 h₁).2.2
    have h₂ := (le_iff_value.1 h₂).2.2
    have h := (lt_iff_value.1 h).2.2
    linarith
  defined_floor_ceil htol h := by
    obtain ⟨hlt, -⟩ := off_whole htol h
    exact ⟨defined_of_isFinite (value_floor hlt).1, defined_of_isFinite (value_ceil hlt).1⟩
  le_floor_iff {v tol z} htol h hz := by
    obtain ⟨hlt, hoff⟩ := off_whole htol h
    obtain ⟨hdefined, k, hk⟩ := exists_of_isWhole hz
    obtain ⟨hfloor, hfloor'⟩ := value_floor hlt
    obtain ⟨hceil, hceil'⟩ := value_ceil hlt
    show z ≤ floor v ↔ ¬ ceil v ≤ z
    rw [le_iff_value, le_iff_value, hfloor', hceil', hk]
    simp only [hdefined, defined_of_isFinite hfloor, defined_of_isFinite hceil, true_and, Int.cast_le]
    rw [Int.le_floor, Int.ceil_le, not_le]
    constructor
    · intro hle
      exact lt_of_le_of_ne hle (hoff k).symm
    · exact LT.lt.le

instance : OrderedScalar Float where
  le_refl ha := le_iff_value.2 ⟨ha, ha, le_rfl⟩
  le_trans := le_trans
  le_of_not_lt ha hb h := (not_lt_iff ha hb).1 h
  beq_of_le h₁ h₂ := by
    obtain ⟨ha, hb, h₁⟩ := le_iff_value.1 h₁
    exact beq_iff_value.2 ⟨ha, hb, le_antisymm h₁ (le_iff_value.1 h₂).2.2⟩
  max_eq a b := by
    show larger a b = a ∨ larger a b = b
    unfold larger
    split <;> simp
  min_eq a b := by
    show smaller a b = a ∨ smaller a b = b
    unfold smaller
    split <;> simp

instance : ValuedScalar Float where
  value := value
  le_iff_value := le_iff_value
  value_ne htol h := (off_whole htol h).2
  value_floor htol h := (value_floor (off_whole htol h).1).2
  value_ceil htol h := (value_ceil (off_whole htol h).1).2

end IntegerProgram.Binary64
