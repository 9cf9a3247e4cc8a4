import Mathlib
import IntegerProgram.Model.Basic
import IntegerProgram.Proofs.Binary64.Overflow
import IntegerProgram.Proofs.Matrix

/-!
# Residuals of rounded systems

What a small residual says about the rows of an equation system in binary64 numbers. The largest absolute
entry passes over undefined entries, so a residual bounds the defined rows and keeps silent about the
others:

* `Binary64.maxAbs_le_iff`: the largest absolute value of a list is within a bound if each entry is or is
  undefined.
* `Binary64.isNaN_foldl_add_iff`: a running total is undefined exactly if it breaks down on the way
  (`Binary64.BreaksDown`).
* `SparseMatrix.get_gaps`: an entry of `A x - b` is the running total of its row.
* `SparseMatrix.residual_certifies`: which rows a residual certifies, and which it says nothing about.
-/

namespace IntegerProgram

/-- A sum is undefined if a summand is, and for opposite infinities. -/
lemma NonFinite.sum_eq_nan_iff {k l : Option NonFinite} : sum k l = some .nan ↔
    k = some .nan ∨ l = some .nan ∨
      (k = some .infinity ∧ l = some .negInfinity ∨ k = some .negInfinity ∧ l = some .infinity) := by
  rcases k with _ | ⟨_ | _ | _⟩ <;> rcases l with _ | ⟨_ | _ | _⟩ <;> decide

lemma Scalar.isNaN_iff {α : Type} [Scalar α] {v : α} :
    Scalar.isNaN v = true ↔ Scalar.nonFinite? v = some .nan :=
  beq_iff_eq

namespace Binary64

open Float.Model (UnpackedFloat Format)
open Float.Model.UnpackedFloat (Sign)

/-! ## Largest absolute values -/

section Extremes

variable {a b bound : Float} {values : List Float}

/-- An undefined number is passed over. -/
lemma larger_of_isNaN (hb : Scalar.isNaN b = true) : larger a b = a := by
  rw [isNaN_eq] at hb
  unfold larger
  rw [show b.isNaN = true from hb]
  rfl

/-- A running maximum is within a bound if its start is and each entry is or is undefined. -/
lemma foldl_larger_le_iff {start : Float} (hstart : Scalar.isNaN start = false) :
    values.foldl (fun largest v => larger largest v.abs) start ≤ bound ↔
      start ≤ bound ∧ ∀ v ∈ values, Scalar.isNaN v = true ∨ v.abs ≤ bound := by
  induction values generalizing start with
  | nil => simp
  | cons v rest ih =>
    rw [List.foldl_cons, List.forall_mem_cons]
    cases hv : Scalar.isNaN v with
    | true =>
      rw [larger_of_isNaN ((isNaN_abs v).trans hv), ih hstart]
      simp
    | false =>
      have habs : Scalar.isNaN v.abs = false := (isNaN_abs v).trans hv
      have hlarger : Scalar.isNaN (larger start v.abs) = false := LawfulScalar.defined_max hstart habs
      rw [ih hlarger, larger_le_iff hstart habs, and_assoc]
      simp

/-- The largest absolute value is within a bound if each entry is or is undefined. -/
lemma maxAbs_le_iff (h : 0 ≤ bound) : Scalar.maxAbs values ≤ bound ↔
    ∀ v ∈ values, Scalar.isNaN v = true ∨ v.abs ≤ bound :=
  (foldl_larger_le_iff rfl).trans (and_iff_right h)

/-- A running maximum stays defined. -/
lemma isNaN_foldl_larger {start : Float} (hstart : Scalar.isNaN start = false) :
    Scalar.isNaN (values.foldl (fun largest v => larger largest v.abs) start) = false := by
  induction values generalizing start with
  | nil => exact hstart
  | cons v rest ih =>
    apply ih
    show Scalar.isNaN (larger start v.abs) = false
    cases hv : Scalar.isNaN v.abs with
    | true => rwa [larger_of_isNaN hv]
    | false => exact LawfulScalar.defined_max hstart hv

lemma zero_le_maxAbs (values : List Float) : 0 ≤ Scalar.maxAbs values := by
  have hdefined : Scalar.isNaN (Scalar.maxAbs values) = false := isNaN_foldl_larger rfl
  exact ((foldl_larger_le_iff rfl).1 (OrderedScalar.le_refl hdefined)).1

/-- No number but a zero is within the bound zero. -/
lemma abs_le_zero_iff {v : Float} : v.abs ≤ 0 ↔ (v == 0) = true := by
  rw [le_iff_value, beq_iff_value, isNaN_abs, value_abs, value_zero, abs_nonpos_iff]

/-- The largest absolute value is zero if each entry is or is undefined. -/
lemma maxAbs_beq_zero_iff : (Scalar.maxAbs values == 0) = true ↔
    ∀ v ∈ values, Scalar.isNaN v = true ∨ (v == 0) = true := by
  have hzero : (Scalar.maxAbs values == 0) = true ↔ Scalar.maxAbs values ≤ 0 := by
    constructor
    · intro h
      obtain ⟨hdefined, hzero, hvalue⟩ := beq_iff_value.1 h
      exact le_iff_value.2 ⟨hdefined, hzero, hvalue.le⟩
    · intro h
      exact OrderedScalar.beq_of_le h (zero_le_maxAbs values)
  rw [hzero, maxAbs_le_iff (OrderedScalar.le_refl rfl)]
  simp only [abs_le_zero_iff]

end Extremes

/-! ## Running totals -/

section Totals

variable {x y start : Float} {summands : List Float}

/-- One of two numbers is the positive infinity and the other the negative one. -/
def AreOpposite (x y : Float) : Prop :=
  Scalar.nonFinite? x = some .infinity ∧ Scalar.nonFinite? y = some .negInfinity ∨
    Scalar.nonFinite? x = some .negInfinity ∧ Scalar.nonFinite? y = some .infinity

/-- A sum is undefined exactly if a summand is or both are opposite infinities: rounding may carry finite
summands to an infinity, but makes nothing undefined. -/
lemma isNaN_add_iff : Scalar.isNaN (x + y) = true ↔
    Scalar.isNaN x = true ∨ Scalar.isNaN y = true ∨ AreOpposite x y := by
  rw [Scalar.isNaN_iff, Scalar.isNaN_iff, Scalar.isNaN_iff]
  by_cases hfinite : Scalar.nonFinite? x = none ∧ Scalar.nonFinite? y = none
  · obtain ⟨hx, hy⟩ := hfinite
    have hdefined : Scalar.isNaN (x + y) = false := by
      rw [isNaN_eq]
      exact (stored_add (isCanonical_unpacked x) (isCanonical_unpacked y) (nonFinite?_eq_none.1 hx)
        (nonFinite?_eq_none.1 hy)).1
    rw [← Scalar.isNaN_iff, hdefined, AreOpposite, hx, hy]
    simp
  · rw [nonFinite?_add (not_and_or.1 hfinite)]
    exact NonFinite.sum_eq_nan_iff

/-- A running total breaks down where its start or a summand is undefined, or where a summand meets the
opposite infinity. -/
def BreaksDown (start : Float) (summands : List Float) : Prop :=
  Scalar.isNaN start = true ∨ ∃ before v after, summands = before ++ v :: after ∧
    (Scalar.isNaN v = true ∨ AreOpposite (before.foldl (· + ·) start) v)

/-- A total is undefined exactly if it breaks down on the way. -/
lemma isNaN_foldl_add_iff :
    Scalar.isNaN (summands.foldl (· + ·) start) = true ↔ BreaksDown start summands := by
  induction summands using List.reverseRecOn with
  | nil => simp [BreaksDown]
  | append_singleton summands v ih =>
    rw [List.foldl_append, List.foldl_cons, List.foldl_nil, isNaN_add_iff, ih]
    constructor
    · rintro ((hstart | ⟨before, w, after, rfl, hw⟩) | hv)
      · exact .inl hstart
      · exact .inr ⟨before, w, after ++ [v], by simp, hw⟩
      · exact .inr ⟨summands, v, [], rfl, hv⟩
    · rintro (hstart | ⟨before, w, after, e, hw⟩)
      · exact .inl (.inl hstart)
      · -- The break is at the last summand or before it.
        cases after using List.reverseRecOn with
        | nil =>
          obtain ⟨rfl, hlast⟩ := List.append_inj' e rfl
          cases hlast
          exact .inr hw
        | append_singleton after u =>
          rw [← List.cons_append, ← List.append_assoc] at e
          obtain ⟨rfl, -⟩ := List.append_inj' e rfl
          exact .inl (.inr ⟨before, w, after, rfl, hw⟩)

/-- Finite summands break no total down. -/
lemma not_breaksDown (hstart : Scalar.isNaN start = false)
    (hfinite : ∀ v ∈ summands, Scalar.isFinite v = true) : ¬ BreaksDown start summands := by
  rintro (hnan | ⟨before, v, after, rfl, hv⟩)
  · rw [hstart] at hnan
    cases hnan
  · have hnone : Scalar.nonFinite? v = none := Option.isNone_iff_eq_none.1 (hfinite v (by simp))
    rw [Scalar.isNaN_iff, AreOpposite, hnone] at hv
    simp at hv

/-- A change of sign makes nothing undefined. -/
lemma isNaN_mul_neg_one (x : Float) : Scalar.isNaN (x * -1) = Scalar.isNaN x := by
  have hone : unpacked (-1) = unit .negative := rfl
  have hmul : unpacked (x * -1) = stored (UnpackedFloat.mul Format.binary64 (unpacked x) (unpacked (-1))) := rfl
  unfold Scalar.isNaN
  rw [nonFinite?_eq, nonFinite?_eq, hmul, hone]
  cases unpacked x with
  | notANumber => rfl
  | infinity s => cases s <;> rfl
  | zero s => cases s <;> rfl
  | finite s m e hm =>
    unfold unit UnpackedFloat.mul
    simp only
    rcases roundWithAccuracy_cases (s * .negative) (m * 2 ^ 52) (e + -52) .exact with h | ⟨m', e', hm', h⟩
    · rw [h, stored_eq (a := .zero _) trivial]
      rfl
    · rw [h]
      rcases kind_stored_finite (s * .negative) m' e' hm' with hkind | hkind
      · rw [hkind]
        rfl
      · rw [hkind]
        cases s <;> rfl

end Totals

end Binary64

/-! ## Rows -/

namespace SparseMatrix

variable {m n : Nat}

section Rows

variable {α : Type} [Scalar α]

/-- What the stored cells of row `i` add to a product with the factor `alpha`, column by column. -/
def rowTerms (a : SparseMatrix α m n) (x : Vector α n) (alpha : α) (i : Fin m) : List α :=
  (a.cells.filter (·.row == i)).map fun c => alpha * c.value * x.get c.col

/-- Scattering cells adds to each entry what the cells of its row contribute, from left to right. -/
lemma get_foldl_scatter_eq (alpha : α) (x : Vector α n) (cells : List (Cell α m n)) (y : Vector α m)
    (i : Fin m) : (cells.foldl (scatter alpha x) y).get i
      = ((cells.filter (·.row == i)).map fun c => alpha * c.value * x.get c.col).foldl (· + ·) (y.get i) := by
  induction cells generalizing y with
  | nil => rfl
  | cons c rest ih =>
    rw [List.foldl_cons, ih, scatter, Vectors.get_replaceAt, List.filter_cons]
    by_cases e : c.row = i
    · subst e
      simp
    · simp [e]

end Rows

/-- The entries of `A x - b`, of which the residual is the largest in size. -/
def gaps (a : SparseMatrix Float m n) (x : Vector Float n) (b : Vector Float m) : Vector Float m :=
  a.mulAdd x b 1 (-1)

variable (a : SparseMatrix Float m n) (x : Vector Float n) (b : Vector Float m)

/-- An entry of `A x - b` is the running total of its row, from the negated right-hand side on. -/
lemma get_gaps (i : Fin m) : (a.gaps x b).get i = (a.rowTerms x 1 i).foldl (· + ·) (b.get i * -1) := by
  have hone : ((1 : Float) == 0) = false := by decide +kernel
  have hzero : ((-1 : Float) == 0) = false := by decide +kernel
  have hsign : ((-1 : Float) == 1) = false := by decide +kernel
  unfold gaps mulAdd scaled
  rw [hone, hzero, hsign]
  simp only [Bool.false_eq_true, if_false]
  rw [get_foldl_scatter_eq, Vectors.get_map]
  rfl

/-- A row is undefined exactly if its running total breaks down. -/
lemma isNaN_gaps_iff (i : Fin m) : Scalar.isNaN ((a.gaps x b).get i) = true ↔
    Binary64.BreaksDown (b.get i * -1) (a.rowTerms x 1 i) := by
  rw [get_gaps, Binary64.isNaN_foldl_add_iff]

/-- A row whose right-hand side is defined and whose products are finite is defined. -/
lemma isNaN_gaps_of_finite {i : Fin m} (hb : Scalar.isNaN (b.get i) = false)
    (hterms : ∀ v ∈ a.rowTerms x 1 i, Scalar.isFinite v = true) :
    Scalar.isNaN ((a.gaps x b).get i) = false := by
  rw [← Bool.not_eq_true, isNaN_gaps_iff]
  exact Binary64.not_breaksDown ((Binary64.isNaN_mul_neg_one _).trans hb) hterms

/-- A residual is within a bound if each row is or is undefined. -/
lemma residual_le_iff_defined {bound : Float} (h : 0 ≤ bound) : a.residual x b ≤ bound ↔
    ∀ i, Scalar.isNaN ((a.gaps x b).get i) = true ∨ ((a.gaps x b).get i).abs ≤ bound :=
  (Binary64.maxAbs_le_iff h).trans Vectors.forall_mem_toList

/-- A residual within a bound certifies the rows of a system that are defined, and says nothing about the
others: those are the rows whose running total breaks down, which takes an undefined right-hand side or a
product that is not finite. In particular the residual of a point for a model is zero exactly if each row is
zero or undefined. -/
theorem residual_certifies {bound : Float} (nonneg : 0 ≤ bound) :
    (a.residual x b ≤ bound ↔
      ∀ i, Scalar.isNaN ((a.gaps x b).get i) = true ∨ ((a.gaps x b).get i).abs ≤ bound) ∧
    (∀ i, Scalar.isNaN ((a.gaps x b).get i) = true ↔
      Binary64.BreaksDown (b.get i * -1) (a.rowTerms x 1 i)) ∧
    (∀ i, Scalar.isNaN (b.get i) = false → (∀ v ∈ a.rowTerms x 1 i, Scalar.isFinite v = true) →
      a.residual x b ≤ bound → ((a.gaps x b).get i).abs ≤ bound) ∧
    ∀ model : Model Float m n, ∃ r, model.residual? x.toArray = .ok r ∧
      ((r == 0) = true ↔ ∀ i, Scalar.isNaN ((model.matrix.gaps x model.target).get i) = true ∨
        ((model.matrix.gaps x model.target).get i == 0) = true) := by
  refine ⟨a.residual_le_iff_defined x b nonneg, a.isNaN_gaps_iff x b, ?_, ?_⟩
  · intro i hb hterms hle
    have hdefined := a.isNaN_gaps_of_finite x b hb hterms
    rcases (a.residual_le_iff_defined x b nonneg).1 hle i with hnan | hle
    · rw [hdefined] at hnan
      cases hnan
    · exact hle
  · intro model
    exact ⟨_, model.matrix.residual?_toArray x model.target,
      Binary64.maxAbs_beq_zero_iff.trans Vectors.forall_mem_toList⟩

/-- Two rows of finite entries, of which the second has the products `∞` and `-∞` at ten and a hundred. -/
def clashing : SparseMatrix Float 2 2 :=
  .ofRows #v[#v[3, 1], #v[1e308, -1e308]]

/-- The residual certifies the row with finite products, and the other row breaks down. -/
theorem residual_certifies_clashing : (0 : Float) ≤ 0.5 ∧
    clashing.residual #v[10, 100] #v[130, 0] ≤ 0.5 ∧
    ((clashing.gaps #v[10, 100] #v[130, 0]).get 0).abs ≤ 0.5 ∧
    Scalar.isNaN ((clashing.gaps #v[10, 100] #v[130, 0]).get 1) = true ∧
    Binary64.BreaksDown (0 * -1) (clashing.rowTerms #v[10, 100] 1 1) := by
  have nonneg : (0 : Float) ≤ 0.5 := by decide +kernel
  have within : clashing.residual #v[10, 100] #v[130, 0] ≤ 0.5 := by decide +kernel
  have finite : ∀ v ∈ clashing.rowTerms #v[10, 100] 1 0, Scalar.isFinite v = true := by decide +kernel
  have undefined : Scalar.isNaN ((clashing.gaps #v[10, 100] #v[130, 0]).get 1) = true := by decide +kernel
  obtain ⟨-, breaks, certified, -⟩ := clashing.residual_certifies #v[10, 100] #v[130, 0] nonneg
  exact ⟨nonneg, within, certified 0 rfl finite within, undefined, (breaks 1).1 undefined⟩

/-- A residual of zero does not show every row to be zero: all data are finite, and a row is undefined. -/
theorem residual_silent :
    (∀ v ∈ clashing.values ++ [10, 100, 130, 0], Scalar.isFinite v = true) ∧
    clashing.residual #v[10, 100] #v[130, 0] ≤ 0 ∧
    ¬ ∀ i, ((clashing.gaps #v[10, 100] #v[130, 0]).get i).abs ≤ 0 := by
  decide +kernel

end SparseMatrix

end IntegerProgram
