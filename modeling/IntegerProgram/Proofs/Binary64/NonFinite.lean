import Mathlib
import IntegerProgram.Model.Candidate
import IntegerProgram.Proofs.Binary64.Whole

/-!
# Undefined and infinite binary64 numbers

How numbers that are not finite pass through rounding, products and sums.

* `nonFinite?_eq`: the bits tell an undefined number and the two infinities apart.
* `isWhole_wholeNumber`, `nonFinite?_wholeNumber`: a finite number is rounded to a whole one, and any other keeps
  its kind.
* `fractionality_le_iff`: a distance to the whole numbers is within a tolerance or above it only for a finite number.
* `IsLow.mul`: if a cost times a number that is not finite is neither undefined nor the positive infinity, the number
  is infinite on the side where the cost falls.
* `IsLow.dot`: so are all such numbers of a point whose total cost is low, and the total is the negative infinity if
  there is one.
-/

namespace IntegerProgram

/-- The kind of a sum that has a summand which is not finite: opposite infinities are undefined together. -/
def NonFinite.sum : Option NonFinite → Option NonFinite → Option NonFinite
  | none, l => l
  | k, none => k
  | some k, some l => if k = l then some k else some .nan

lemma NonFinite.sum_ne_none {k l : Option NonFinite} (h : k ≠ none ∨ l ≠ none) : sum k l ≠ none := by
  rcases k with _ | ⟨_ | _ | _⟩ <;> rcases l with _ | ⟨_ | _ | _⟩ <;> revert h <;> decide

/-- Once undefined or the positive infinity, a sum stays so. -/
lemma NonFinite.low_of_sum {k l : Option NonFinite} (h : sum k l = none ∨ sum k l = some .negInfinity) :
    (k = none ∨ k = some .negInfinity) ∧ (l = none ∨ l = some .negInfinity) ∧
    (k = some .negInfinity ∨ l = some .negInfinity → sum k l = some .negInfinity) := by
  rcases k with _ | ⟨_ | _ | _⟩ <;> rcases l with _ | ⟨_ | _ | _⟩ <;> revert h <;> decide

namespace Binary64

open Float.Model (UnpackedFloat Format)
open Float.Model.UnpackedFloat (Sign)

/-! ## Kinds -/

/-- The way in which an unpacked number is not finite. -/
def kind : UnpackedFloat → Option NonFinite
  | .notANumber => some .nan
  | .infinity .negative => some .negInfinity
  | .infinity .positive => some .infinity
  | _ => none

section Kinds

variable {a : UnpackedFloat} {x : Float}

lemma sign_eq (x : Float) : sign x = if isNegative x then .negative else .positive := by
  have hlt : x.toBits.toNat < 2 ^ 64 := x.toBits.toNat_lt
  have hbit : isNegative x = true ↔ x.toBits.toNat / 2 ^ 63 = 1 := by
    unfold isNegative
    rw [beq_iff_eq, ← UInt64.toNat_inj, UInt64.toNat_shiftRight, ← Nat.shiftRight_eq_div_pow]
    rfl
  unfold sign
  by_cases h : isNegative x = true
  · rw [if_pos h, if_neg]
    have := hbit.1 h
    omega
  · rw [if_neg h, if_pos]
    have := mt hbit.2 h
    omega

/-- The kind of a number can be read off its bits. -/
lemma nonFinite?_eq (x : Float) : Scalar.nonFinite? x = kind (unpacked x) := by
  show nonFinite? x = kind (unpacked x)
  rw [unpacked_eq_fields]
  show _ = kind (ofFields (sign x) _ _)
  unfold nonFinite? ofFields
  rw [sign_eq]
  by_cases hexponent : exponentField x = 2047
  · rw [if_neg (not_not.2 hexponent), if_pos hexponent]
    by_cases hfraction : fractionField x = 0
    · rw [if_neg (not_not.2 hfraction), if_pos hfraction]
      cases isNegative x <;> rfl
    · rw [if_pos hfraction, if_neg hfraction]
      rfl
  · rw [if_pos hexponent, if_neg hexponent]
    split
    · split <;> rfl
    · rfl

lemma nonFinite?_eq_none : Scalar.nonFinite? x = none ↔ (unpacked x).isFinite = true := by
  rw [nonFinite?_eq]
  cases unpacked x with
  | infinity s => cases s <;> simp [kind, UnpackedFloat.isFinite]
  | _ => simp [kind, UnpackedFloat.isFinite]

/-- The positive infinity. -/
def infinity : Float :=
  Float.ofBits 0x7ff0000000000000

lemma nonFinite?_infinity : Scalar.nonFinite? infinity = some .infinity := by
  decide +kernel

/-- The packing leaves numbers that are not finite alone. -/
lemma stored_of_kind (h : kind a ≠ none) : stored a = a := by
  apply stored_eq
  cases a with
  | finite => exact absurd rfl h
  | _ => trivial

end Kinds

/-! ## Rounding -/

section Rounding

variable {x : Float}

/-- Adding zero changes nothing but the sign of a zero. -/
lemma unpacked_add_zero (x : Float) : unpacked (x + 0) = unpacked x ∨
    ∃ s t, unpacked x = .zero s ∧ unpacked (x + 0) = .zero t := by
  have hadd : unpacked (x + 0) = stored (UnpackedFloat.add Format.binary64 (unpacked x) (.zero .positive)) :=
    rfl
  have hcanonical := isCanonical_unpacked x
  rw [hadd]
  cases hu : unpacked x with
  | zero s =>
    right
    cases s with
    | negative => exact ⟨_, _, rfl, stored_eq (a := .zero .positive) trivial⟩
    | positive => exact ⟨_, _, rfl, stored_eq (a := .zero .positive) trivial⟩
  | notANumber => exact .inl (stored_eq (a := .notANumber) trivial)
  | infinity s => exact .inl (stored_eq (a := .infinity s) trivial)
  | finite s m e hm =>
    rw [hu] at hcanonical
    exact .inl (stored_eq hcanonical)

lemma isFinite_add_zero (x : Float) : (unpacked (x + 0)).isFinite = (unpacked x).isFinite := by
  rcases unpacked_add_zero x with h | ⟨s, t, hs, ht⟩
  · rw [h]
  · rw [hs, ht]
    rfl

lemma value_add_zero (x : Float) : value (x + 0) = value x := by
  unfold value
  rcases unpacked_add_zero x with h | ⟨s, t, hs, ht⟩
  · rw [h]
  · rw [hs, ht, place_zero, place_zero]

/-- The nearest whole number to a finite one is whole. -/
lemma isWhole_round (hx : (unpacked x).isFinite = true) : Scalar.IsWhole (round x) := by
  rw [isWhole_iff]
  rcases lt_or_ge (exponentField x) 1075 with hlt | hge
  · exact exists_value_round hlt
  · rw [round_of_le hge]
    exact ⟨hx, exists_value_of_le hx hge⟩

/-- What is not finite is rounded to itself. -/
lemma round_of_not_isFinite (hx : (unpacked x).isFinite = false) : round x = x := by
  apply round_of_le
  by_contra h
  rw [(value_eq (by omega)).1] at hx
  cases hx

lemma isWhole_wholeNumber (hx : Scalar.nonFinite? x = none) : Scalar.IsWhole (Candidate.wholeNumber x) := by
  have hround := isWhole_round (nonFinite?_eq_none.1 hx)
  rw [isWhole_iff] at hround
  show Scalar.IsWhole (round x + 0)
  rwa [isWhole_iff, isFinite_add_zero, value_add_zero]

/-- What is not finite is rounded to a number of its kind. -/
lemma nonFinite?_wholeNumber (hx : Scalar.nonFinite? x ≠ none) :
    Scalar.nonFinite? (Candidate.wholeNumber x) = Scalar.nonFinite? x := by
  have hfinite : (unpacked x).isFinite = false := by
    rwa [ne_eq, nonFinite?_eq_none, Bool.not_eq_true] at hx
  show Scalar.nonFinite? (round x + 0) = Scalar.nonFinite? x
  rw [round_of_not_isFinite hfinite]
  rcases unpacked_add_zero x with h | ⟨s, t, hs, -⟩
  · rw [nonFinite?_eq, nonFinite?_eq, h]
  · rw [nonFinite?_eq, hs] at hx
    exact absurd rfl hx

/-- A distance to the whole numbers is within a tolerance if it is not above it, provided the number is finite;
to a number that is not finite there is no distance. -/
lemma fractionality_le_iff {tol : Float} (htol : Scalar.isNaN tol = false) :
    Scalar.fractionality x ≤ tol ↔ Scalar.nonFinite? x = none ∧ ¬ tol < Scalar.fractionality x := by
  have hdistance : Scalar.isNaN (Scalar.fractionality x) = Scalar.isNaN (x - round x) := isNaN_abs _
  cases hx : (unpacked x).isFinite with
  | true =>
    rw [nonFinite?_eq_none, hx, not_lt_iff htol, and_iff_right rfl]
    rw [hdistance]
    exact (value_sub hx (isWhole_iff.1 (isWhole_round hx)).1).1
  | false =>
    have hnone : ¬ Scalar.nonFinite? x = none := by
      rw [nonFinite?_eq_none, hx]
      nofun
    apply iff_of_false
    · intro hle
      have hdefined := (le_iff_value.1 hle).1
      rw [hdistance, round_of_not_isFinite hx, sub_self_of_not_isFinite hx] at hdefined
      cases hdefined
    · rintro ⟨h, -⟩
      exact hnone h

/-- Whole numbers are finite. -/
lemma nonFinite?_of_isWhole (h : Scalar.IsWhole x) : Scalar.nonFinite? x = none :=
  nonFinite?_eq_none.2 (isWhole_iff.1 h).1

end Rounding

/-! ## Products -/

/-- Neither undefined nor the positive infinity. -/
def IsLow (x : Float) : Prop :=
  Scalar.nonFinite? x = none ∨ Scalar.nonFinite? x = some .negInfinity

/-- An infinite value on the side where its cost falls. -/
def RunsAway (cost v : Float) : Prop :=
  (Scalar.nonFinite? v = some .infinity ∧ cost < 0) ∨ (Scalar.nonFinite? v = some .negInfinity ∧ 0 < cost)

/-- A number below another one is low. -/
lemma isLow_of_lt {x y : Float} (h : x < y) : IsLow x := by
  obtain ⟨hdefined, -, hlt⟩ := lt_iff_value.1 h
  have hfar := (abs_le.1 (abs_place_le (isCanonical_unpacked y))).2
  unfold value at hlt
  rw [isNaN_eq] at hdefined
  rw [IsLow, nonFinite?_eq]
  cases hu : unpacked x with
  | notANumber =>
    rw [hu] at hdefined
    cases hdefined
  | infinity s =>
    cases s with
    | negative => exact .inr rfl
    | positive =>
      rw [hu] at hlt
      exact absurd hlt (not_lt.2 hfar)
  | _ => exact .inl rfl

/-- A number times an infinity is undefined, or an infinity with the signs of both. -/
lemma mul_infinity_cases (a : UnpackedFloat) (s : Sign) :
    UnpackedFloat.mul Format.binary64 a (.infinity s) = .notANumber ∨
    ∃ t : Sign, UnpackedFloat.mul Format.binary64 a (.infinity s) = .infinity (t * s) ∧ a.isNaN = false ∧
      0 < t.apply 1 * place a := by
  have hfar := far_pos
  cases a with
  | notANumber => exact .inl rfl
  | zero t => exact .inl rfl
  | infinity t =>
    refine .inr ⟨t, rfl, rfl, ?_⟩
    cases t <;> simpa [place, Sign.apply] using hfar
  | finite t m e hm =>
    refine .inr ⟨t, rfl, rfl, ?_⟩
    have hpos : (0 : ℚ) < m * 2 ^ e := by positivity
    cases t with
    | negative =>
      rw [place_negative]
      simpa [Sign.apply] using hpos
    | positive =>
      rw [place_positive]
      simpa [Sign.apply] using hpos

/-- A product with a factor that is not finite is undefined, or the positive infinity, or the negative one, and then
the factors have opposite signs. -/
lemma kind_mul (c : UnpackedFloat) {v : UnpackedFloat} (hv : kind v ≠ none) :
    kind (UnpackedFloat.mul Format.binary64 c v) = some .nan ∨
    kind (UnpackedFloat.mul Format.binary64 c v) = some .infinity ∨
    kind (UnpackedFloat.mul Format.binary64 c v) = some .negInfinity ∧ c.isNaN = false ∧
      ((kind v = some .infinity ∧ place c < 0) ∨ (kind v = some .negInfinity ∧ 0 < place c)) := by
  cases v with
  | notANumber =>
    left
    cases c <;> rfl
  | infinity s =>
    rcases mul_infinity_cases c s with hnan | ⟨t, hproduct, hdefined, hsign⟩
    · left
      rw [hnan]
      rfl
    · rw [hproduct]
      cases t with
      | negative =>
        have hc : place c < 0 := by simpa [Sign.apply] using hsign
        cases s with
        | negative => exact .inr (.inl rfl)
        | positive => exact .inr (.inr ⟨rfl, hdefined, .inl ⟨rfl, hc⟩⟩)
      | positive =>
        have hc : 0 < place c := by simpa [Sign.apply] using hsign
        cases s with
        | negative => exact .inr (.inr ⟨rfl, hdefined, .inr ⟨rfl, hc⟩⟩)
        | positive => exact .inr (.inl rfl)
  | _ => exact absurd rfl hv

/-- A low product with a factor that is not finite is the negative infinity. -/
lemma IsLow.mul {c v : Float} (h : IsLow (c * v)) (hv : Scalar.nonFinite? v ≠ none) :
    RunsAway c v ∧ Scalar.nonFinite? (c * v) = some .negInfinity := by
  have hmul : unpacked (c * v) = stored (UnpackedFloat.mul Format.binary64 (unpacked c) (unpacked v)) := rfl
  rw [nonFinite?_eq] at hv
  have hproduct := kind_mul (unpacked c) hv
  have hkind : Scalar.nonFinite? (c * v) = kind (UnpackedFloat.mul Format.binary64 (unpacked c) (unpacked v)) := by
    rw [nonFinite?_eq, hmul, stored_of_kind]
    rcases hproduct with h | h | ⟨h, -⟩ <;> simp [h]
  rw [IsLow, hkind] at h
  rw [RunsAway, hkind, nonFinite?_eq, lt_iff_value, lt_iff_value, value_zero, isNaN_eq c]
  rcases hproduct with hnan | htop | ⟨hbottom, hdefined, hside⟩
  · simp [hnan] at h
  · simp [htop] at h
  · refine ⟨?_, hbottom⟩
    rcases hside with ⟨hv, hc⟩ | ⟨hv, hc⟩
    · exact .inl ⟨hv, hdefined, rfl, hc⟩
    · exact .inr ⟨hv, rfl, hdefined, hc⟩

/-! ## Sums -/

section Sums

variable {a b : UnpackedFloat} {x y : Float} {n : Nat}

lemma kind_add (h : kind a ≠ none ∨ kind b ≠ none) :
    kind (UnpackedFloat.add Format.binary64 a b) = NonFinite.sum (kind a) (kind b) := by
  cases a with
  | notANumber =>
    cases b with
    | infinity t => cases t <;> rfl
    | _ => rfl
  | infinity s =>
    cases b with
    | infinity t => cases s <;> cases t <;> rfl
    | _ => cases s <;> rfl
  | _ =>
    cases b with
    | infinity t => cases t <;> rfl
    | notANumber => rfl
    | _ => simp [kind] at h

/-- The kind of a sum with a summand that is not finite. -/
lemma nonFinite?_add (h : Scalar.nonFinite? x ≠ none ∨ Scalar.nonFinite? y ≠ none) :
    Scalar.nonFinite? (x + y) = NonFinite.sum (Scalar.nonFinite? x) (Scalar.nonFinite? y) := by
  have hadd : unpacked (x + y) = stored (UnpackedFloat.add Format.binary64 (unpacked x) (unpacked y)) := rfl
  simp only [nonFinite?_eq] at h ⊢
  have hkind := kind_add h
  rw [hadd, stored_of_kind, hkind]
  rw [hkind]
  exact NonFinite.sum_ne_none h

/-- A low sum has low summands, and it is the negative infinity if one of them is. -/
lemma IsLow.add (h : IsLow (x + y)) : IsLow x ∧ IsLow y ∧
    (Scalar.nonFinite? x = some .negInfinity ∨ Scalar.nonFinite? y = some .negInfinity →
      Scalar.nonFinite? (x + y) = some .negInfinity) := by
  by_cases hfinite : Scalar.nonFinite? x = none ∧ Scalar.nonFinite? y = none
  · obtain ⟨hx, hy⟩ := hfinite
    refine ⟨.inl hx, .inl hy, ?_⟩
    rw [hx, hy]
    rintro (h | h) <;> cases h
  · have hsum := nonFinite?_add (not_and_or.1 hfinite)
    rw [IsLow, hsum] at h
    rw [hsum]
    exact NonFinite.low_of_sum h

/-- A low total has low summands only, and it is the negative infinity if one of them is. -/
lemma IsLow.foldl {start : Float} {ts : List Float} (h : IsLow (ts.foldl (· + ·) start)) :
    IsLow start ∧ (∀ t ∈ ts, IsLow t) ∧
    ((∃ t ∈ start :: ts, Scalar.nonFinite? t = some .negInfinity) →
      Scalar.nonFinite? (ts.foldl (· + ·) start) = some .negInfinity) := by
  induction ts generalizing start with
  | nil => exact ⟨h, by simp, by simp⟩
  | cons t rest ih =>
    obtain ⟨hstart, hrest, hfall⟩ := ih h
    obtain ⟨hstart, ht, hfall'⟩ := hstart.add
    refine ⟨hstart, List.forall_mem_cons.2 ⟨ht, hrest⟩, ?_⟩
    rintro ⟨v, hv, hkind⟩
    apply hfall
    rcases List.mem_cons.1 hv with rfl | hv
    · exact ⟨_, List.mem_cons_self, hfall' (.inl hkind)⟩
    · rcases List.mem_cons.1 hv with rfl | hv
      · exact ⟨_, List.mem_cons_self, hfall' (.inr hkind)⟩
      · exact ⟨v, List.mem_cons_of_mem _ hv, hkind⟩

/-- Where a total cost is low, every value that is not finite runs away, and takes the total with it. -/
lemma IsLow.dot {cost x : Vector Float n} (h : IsLow (Scalar.dot cost.toList x.toList)) (i : Fin n)
    (hi : Scalar.nonFinite? (x.get i) ≠ none) : RunsAway (cost.get i) (x.get i) ∧
      Scalar.nonFinite? (Scalar.dot cost.toList x.toList) = some .negInfinity := by
  have hmem : cost.get i * x.get i ∈ List.zipWith (· * ·) cost.toList x.toList := by
    refine List.mem_iff_getElem.2 ⟨i, by simp, ?_⟩
    simp [Vectors.get_eq]
  obtain ⟨-, hproducts, hfall⟩ := IsLow.foldl h
  obtain ⟨haway, hkind⟩ := (hproducts _ hmem).mul hi
  exact ⟨haway, hfall ⟨_, List.mem_cons_of_mem _ hmem, hkind⟩⟩

end Sums

end Binary64

end IntegerProgram
