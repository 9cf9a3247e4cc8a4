import Mathlib
import IntegerProgram.Proofs.Lawful
import IntegerProgram.Proofs.Binary64.Unpacked

/-!
# Packed binary64 numbers

The bits of a binary64 number and the number they stand for.

* `unpack_eq_digits`: the sign, the biased exponent and the fraction are digits of the bit pattern.
* `unpack_pack`: a canonical number survives the packing.
* `le_iff_value`, `lt_iff_value`: defined numbers compare as their places on the rational line.
-/

namespace IntegerProgram.Binary64

open Float.Model (UnpackedFloat Format)
open Float.Model.UnpackedFloat (Sign packComponents unpackMantissa unpackExponent unpackSign)

/-- The number with the given sign, biased exponent and fraction. -/
def ofFields (s : Sign) (e f : ℕ) : UnpackedFloat :=
  if e = 2047 then (if f = 0 then .infinity s else .notANumber)
  else if e = 0 then (if h : f = 0 then .zero s else .finite s f (-1074) (Nat.pos_of_ne_zero h))
  else .finite s (2 ^ 52 + f) (e - 1075) (by positivity)

/-- The number whose bits are the binary digits of `n`. -/
def ofDigits (n : ℕ) : UnpackedFloat :=
  ofFields (if n / 2 ^ 63 % 2 = 0 then .positive else .negative) (n / 2 ^ 52 % 2 ^ 11) (n % 2 ^ 52)

section Fields

variable (b : BitVec Format.binary64.numBits)

lemma toNat_unpackExponent : (unpackExponent b).toNat = b.toNat / 2 ^ 52 % 2 ^ 11 := by
  unfold unpackExponent
  simp [BitVec.extractLsb, BitVec.extractLsb', Nat.shiftRight_eq_div_pow]

lemma toNat_unpackMantissa : (unpackMantissa b).toNat = b.toNat % 2 ^ 52 := by
  unfold unpackMantissa
  simp [BitVec.extractLsb, BitVec.extractLsb', Nat.shiftRight_eq_div_pow]

lemma toNat_unpackSign : (unpackSign b).toNat = b.toNat / 2 ^ 63 % 2 := by
  unfold unpackSign
  simp [BitVec.extractLsb, BitVec.extractLsb', Nat.shiftRight_eq_div_pow]

lemma unpack_eq_fields :
    UnpackedFloat.unpack Format.binary64 b =
      ofFields (Sign.ofBitVec (unpackSign b)) (unpackExponent b).toNat (unpackMantissa b).toNat := by
  have hones : unpackExponent b = -1#_ ↔ (unpackExponent b).toNat = 2047 := by
    rw [← BitVec.toNat_inj]
    rfl
  have hzero : unpackExponent b = 0#_ ↔ (unpackExponent b).toNat = 0 := by
    rw [← BitVec.toNat_inj]
    rfl
  have hfraction : unpackMantissa b = 0#_ ↔ (unpackMantissa b).toNat = 0 := by
    rw [← BitVec.toNat_inj]
    rfl
  have hleading : (1#1 ++ unpackMantissa b).toNat = 2 ^ 52 + (unpackMantissa b).toNat := by
    have hlt : (unpackMantissa b).toNat < 2 ^ 52 := (unpackMantissa b).isLt
    rw [BitVec.toNat_append, ← Nat.shiftLeft_add_eq_or_of_lt hlt]
    rfl
  unfold UnpackedFloat.unpack ofFields
  simp only [hones, hzero, hfraction, hleading]
  split
  · rfl
  · split
    case isTrue h =>
      rw [h]
      rfl
    · rfl

lemma unpack_eq_digits : UnpackedFloat.unpack Format.binary64 b = ofDigits b.toNat := by
  have hsign : unpackSign b = 0#1 ↔ b.toNat / 2 ^ 63 % 2 = 0 := by
    rw [← toNat_unpackSign, ← BitVec.toNat_inj]
    rfl
  rw [unpack_eq_fields, toNat_unpackExponent, toNat_unpackMantissa]
  unfold Sign.ofBitVec ofDigits
  simp only [hsign]

end Fields

/-- The fields of a bit pattern stand for a canonical number. -/
lemma isCanonical_ofFields {s : Sign} {e f : ℕ} (he : e < 2 ^ 11) (hf : f < 2 ^ 52) :
    IsCanonical (ofFields s e f) := by
  unfold ofFields
  split
  · split <;> trivial
  · split
    · split
      · trivial
      · unfold IsCanonical
        omega
    · unfold IsCanonical
      omega

lemma isCanonical_ofDigits (n : ℕ) : IsCanonical (ofDigits n) :=
  isCanonical_ofFields (Nat.mod_lt _ (by positivity)) (Nat.mod_lt _ (by positivity))

section Pack

variable {s : Sign} {m : ℕ} {e : ℤ} {hm : 0 < m}

/-- The sign stands in front of the other fields. -/
lemma unpackSign_packComponents (e : BitVec 11) (f : BitVec 52) :
    unpackSign (packComponents Format.binary64 s e f) = s.toBitVec := by
  show BitVec.extractLsb' 63 1 (s.toBitVec ++ e ++ f) = s.toBitVec
  rw [BitVec.extractLsb'_append_eq_of_le (by decide)]
  exact BitVec.extractLsb'_append_eq_left

lemma unpack_packComponents (e : BitVec 11) (f : BitVec 52) :
    UnpackedFloat.unpack Format.binary64 (packComponents Format.binary64 s e f) =
      ofFields s e.toNat f.toNat := by
  rw [unpack_eq_fields, unpackSign_packComponents]
  simp only [UnpackedFloat.unpackExponent_packComponents, UnpackedFloat.unpackMantissa_packComponents]
  cases s <;> rfl

/-- The fields of a packed number: a significand without its leading bit has the exponent zero. -/
lemma unpack_pack_finite :
    UnpackedFloat.unpack Format.binary64 (UnpackedFloat.pack Format.binary64 (.finite s m e hm)) =
      if 971 < e then .infinity s
      else ofFields s (if m.log2 = 52 then (e + 1075).toNat % 2 ^ 11 else 0) (m % 2 ^ 52) := by
  have hbias : (Format.binary64.exponentBias : ℤ) = 1023 := rfl
  have hbits : Format.binary64.mantissaBits = 53 := rfl
  have hover : 2 ^ 11 ≤ (e + 1075).toNat + 1 ↔ 971 < e := by omega
  have hexp : (e + 1023 + (52 : ℕ)).toNat = (e + 1075).toNat := by omega
  have hlog : m.log2 + 1 = 53 ↔ m.log2 = 52 := by omega
  unfold UnpackedFloat.pack
  simp only [hbias, hbits, hover, hexp, hlog]
  split
  · exact unpack_packComponents _ _
  · split
    · rw [unpack_packComponents, BitVec.toNat_ofNat, BitVec.toNat_ofNat]
    · rw [unpack_packComponents, BitVec.toNat_zero, BitVec.toNat_ofNat]

/-- A canonical number survives the packing. -/
lemma unpack_pack {u : UnpackedFloat} (h : IsCanonical u) :
    UnpackedFloat.unpack Format.binary64 (UnpackedFloat.pack Format.binary64 u) = u := by
  cases u with
  | notANumber => exact unpack_packComponents _ _
  | infinity s => exact unpack_packComponents _ _
  | zero s => exact unpack_packComponents _ _
  | finite s m e hm =>
    obtain ⟨hlt, hmin, hmax, hc⟩ := h
    rw [unpack_pack_finite, if_neg (by omega)]
    unfold ofFields
    by_cases hnormal : 2 ^ 52 ≤ m
    · have hlog : m.log2 = 52 := (Nat.log2_eq_iff hm.ne').2 ⟨hnormal, hlt⟩
      have hmantissa : 2 ^ 52 + m % 2 ^ 52 = m := by omega
      rw [if_pos hlog, if_neg (by omega), if_neg (by omega)]
      simp only [hmantissa]
      congr 1
      omega
    · have hlog : m.log2 < 52 := (Nat.log2_lt hm.ne').2 (by omega)
      have hmantissa : m % 2 ^ 52 = m := Nat.mod_eq_of_lt (by omega)
      simp only [if_neg hlog.ne, hmantissa]
      rw [if_neg (by decide), if_pos trivial, dif_neg hm.ne']
      simp only [hc.resolve_left hnormal]

end Pack

/-- The sign, significand and exponent of a number. -/
def unpacked (x : Float) : UnpackedFloat :=
  x.toModel.unpack

/-- The place of a number on the rational line. -/
def value (x : Float) : ℚ :=
  place (unpacked x)

lemma unpacked_eq (x : Float) : unpacked x = ofDigits x.toBits.toNat :=
  unpack_eq_digits _

lemma isCanonical_unpacked (x : Float) : IsCanonical (unpacked x) := by
  rw [unpacked_eq]
  exact isCanonical_ofDigits _

lemma unpacked_pack {u : UnpackedFloat} (h : IsCanonical u) :
    unpacked (.ofModel (.pack u)) = u :=
  unpack_pack h

lemma unpacked_ofBits (b : UInt64) : unpacked (Float.ofBits b) = ofDigits b.toNat := by
  have hunpack : UnpackedFloat.unpack Format.binary64 b.toBitVec = ofDigits b.toNat :=
    unpack_eq_digits b.toBitVec
  show unpacked (.ofModel (.pack (UnpackedFloat.unpack Format.binary64 b.toBitVec))) = _
  rw [hunpack, unpacked_pack (isCanonical_ofDigits _)]

section Order

variable {x y : Float}

lemma exponentField_eq (x : Float) : exponentField x = x.toBits.toNat / 2 ^ 52 % 2 ^ 11 := by
  unfold exponentField
  rw [UInt64.toNat_and, UInt64.toNat_shiftRight]
  show x.toBits.toNat >>> 52 &&& 2 ^ 11 - 1 = _
  rw [Nat.and_two_pow_sub_one_eq_mod, Nat.shiftRight_eq_div_pow]

lemma fractionField_eq (x : Float) : fractionField x = x.toBits.toNat % 2 ^ 52 := by
  unfold fractionField
  rw [UInt64.toNat_and]
  show x.toBits.toNat &&& 2 ^ 52 - 1 = _
  rw [Nat.and_two_pow_sub_one_eq_mod]

/-- A number is undefined when its bits are. -/
lemma isNaN_eq (x : Float) : Scalar.isNaN x = (unpacked x).isNaN := by
  rw [unpacked_eq]
  show (nonFinite? x == some .nan) = _
  unfold nonFinite? ofDigits ofFields
  rw [exponentField_eq, fractionField_eq]
  by_cases hones : x.toBits.toNat / 2 ^ 52 % 2 ^ 11 = 2047
  · by_cases hfraction : x.toBits.toNat % 2 ^ 52 = 0
    · rw [if_pos hones, if_pos hfraction, if_neg (not_not.2 hones), if_neg (not_not.2 hfraction)]
      split <;> rfl
    · rw [if_pos hones, if_neg hfraction, if_neg (not_not.2 hones), if_pos hfraction]
      rfl
  · rw [if_neg hones, if_pos hones]
    split
    · split <;> rfl
    · rfl

/-- Numbers compare as their places do, once they are defined. -/
lemma le_iff_value : x ≤ y ↔ Scalar.isNaN x = false ∧ Scalar.isNaN y = false ∧ value x ≤ value y := by
  rw [isNaN_eq, isNaN_eq]
  show x.le y = true ↔ _
  have hle : x.le y = (unpacked x).le (unpacked y) := by
    show decide ((unpacked x).le (unpacked y) = true) = _
    rw [Bool.decide_eq_true]
  rw [hle]
  exact le_iff (isCanonical_unpacked x) (isCanonical_unpacked y)

lemma lt_iff_value : x < y ↔ Scalar.isNaN x = false ∧ Scalar.isNaN y = false ∧ value x < value y := by
  rw [isNaN_eq, isNaN_eq]
  show x.lt y = true ↔ _
  have hlt : x.lt y = (unpacked x).lt (unpacked y) := by
    show decide ((unpacked x).lt (unpacked y) = true) = _
    rw [Bool.decide_eq_true]
  rw [hlt]
  exact lt_iff (isCanonical_unpacked x) (isCanonical_unpacked y)

lemma beq_iff_value : (x == y) = true ↔
    Scalar.isNaN x = false ∧ Scalar.isNaN y = false ∧ value x = value y := by
  rw [isNaN_eq, isNaN_eq]
  show (unpacked x).beq (unpacked y) = true ↔ _
  exact beq_iff (isCanonical_unpacked x) (isCanonical_unpacked y)

instance isTrans_lt : IsTrans Float (· < ·) where
  trans x y z hxy hyz := by
    obtain ⟨hx, -, hxy⟩ := lt_iff_value.1 hxy
    obtain ⟨-, hz, hyz⟩ := lt_iff_value.1 hyz
    exact lt_iff_value.2 ⟨hx, hz, hxy.trans hyz⟩

end Order

end IntegerProgram.Binary64
