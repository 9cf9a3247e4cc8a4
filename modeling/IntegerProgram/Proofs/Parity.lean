import Mathlib
import IntegerProgram.Proofs.Optimum

/-!
# The exact meaning of the parity encoding

Over exact scalars the integer points of a parity model are known one by one: a binary selection that reaches
the target in every row with the right parity, and beside it half of the surplus of each row
(`Encoding.parityPoint`). A selection of the right parity that stays below the target has no point, so in
general some solutions modulo two are lost. For the problems the encoding is meant for none is:

* `Encoding.exceeds_iff_selects`: without negative entries and for a binary target, the right parity is enough.
* `Encoding.IsParity.bijOn_selection`: reading the selection off a point is a bijection.
* `Encoding.encode_parity_exact` puts this together with costs, optimum and solvability.
-/

namespace IntegerProgram

variable {m n k : Nat}

/-- The integer points of a model in its box. -/
def Model.integerPoints (model : Model Rat m k) : Set (Vector Rat k) :=
  {z | model.box.Holds z ∧ model.IntegerFeasible z}

namespace Encoding

variable {a : SparseMatrix Rat m n} {A : Fin m → Fin n → ℤ} {y : Fin m → ℤ} {x : Fin n → ℕ}

/-- The columns that a point of the parity model selects. -/
def selection (z : Vector Rat (n + m)) (j : Fin n) : ℕ :=
  ⌊z.get (j.castAdd m)⌋₊

/-- The number of ones of a vector. -/
def ones (x : Fin n → ℕ) : ℕ :=
  (Finset.univ.filter fun j => x j = 1).card

@[simp] lemma selection_parityPoint (A : Fin m → Fin n → ℤ) (y : Fin m → ℤ) (x : Fin n → ℕ) :
    selection (parityPoint A y x) = x := by
  funext j
  rw [selection, get_parityPoint_castAdd, Nat.floor_natCast]

lemma ones_eq_sum (hx : ∀ j, x j = 0 ∨ x j = 1) : ones x = ∑ j, x j := by
  rw [ones, Finset.card_filter]
  apply Finset.sum_congr rfl
  intro j _
  rcases hx j with h | h
  · rw [h, if_neg zero_ne_one]
  · rw [h, if_pos rfl]

/-- Without negative entries and for a binary target, a selection of the right parity is no smaller than the
target. -/
lemma exceeds_iff_selects (suits : parity.Suits A y) : Exceeds A y x ↔ parity.Selects A y x := by
  obtain ⟨hentries, htarget⟩ := suits
  have htotal : ∀ i, 0 ≤ ∑ j, A i j * x j := fun i =>
    Finset.sum_nonneg fun j _ => mul_nonneg (hentries i j) (Int.natCast_nonneg (x j))
  rw [exceeds_iff]
  exact and_congr_right fun _ => forall_congr' fun i => exists_surplus_iff (htotal i) (htarget i)

namespace IsParity

variable {model : Model Rat m (n + m)} (pure : IsParity model a y) (hA : ∀ i j, a.entry i j = A i j)
include pure

lemma inner_eq_ones (hx : ∀ j, x j = 0 ∨ x j = 1) :
    Vectors.inner model.cost (parityPoint A y x) = ones x := by
  rw [IsParity.inner_parityPoint pure, ones_eq_sum hx]

include hA

lemma bijOn_selection : Set.BijOn selection model.integerPoints {x | Exceeds A y x} := by
  have hinverse : Set.InvOn (parityPoint A y) selection model.integerPoints {x | Exceeds A y x} := by
    refine ⟨?_, fun x _ => selection_parityPoint A y x⟩
    intro z hz
    obtain ⟨x, -, rfl⟩ := (IsParity.feasible_iff pure hA).1 hz
    rw [selection_parityPoint]
  refine hinverse.bijOn ?_ ?_
  · intro z hz
    obtain ⟨x, hx, rfl⟩ := (IsParity.feasible_iff pure hA).1 hz
    rw [selection_parityPoint]
    exact hx
  · intro x hx
    exact (IsParity.feasible_iff pure hA).2 ⟨x, hx, rfl⟩

lemma inner_eq_ones_selection {z : Vector Rat (n + m)} (hz : z ∈ model.integerPoints) :
    Vectors.inner model.cost z = ones (selection z) := by
  obtain ⟨x, hx, rfl⟩ := (IsParity.feasible_iff pure hA).1 hz
  rw [selection_parityPoint, IsParity.inner_eq_ones pure hx.binary]

/-- The model and the selections have the same least cost. -/
lemma isLeast_iff {v : Rat} : IsLeast (Vectors.inner model.cost '' model.integerPoints) v ↔
    ∃ least : ℕ, v = least ∧ IsLeast (ones '' {x | Exceeds A y x}) least := by
  have hcosts : Vectors.inner model.cost '' model.integerPoints =
      Nat.cast '' (ones '' {x | Exceeds A y x}) := by
    rw [← (IsParity.bijOn_selection pure hA).image_eq, Set.image_image, Set.image_image]
    exact Set.image_congr fun z hz => IsParity.inner_eq_ones_selection pure hA hz
  rw [hcosts]
  constructor
  · rintro ⟨⟨least, hleast, rfl⟩, hbelow⟩
    refine ⟨least, rfl, hleast, ?_⟩
    intro other hother
    exact_mod_cast hbelow (Set.mem_image_of_mem _ hother)
  · rintro ⟨least, rfl, hleast⟩
    exact Nat.mono_cast.map_isLeast hleast

end IsParity

/-- The exact meaning of the parity encoding, for every integer matrix with columns and every integer target:
the model exists, and its integer points are the points of the binary selections that exceed the target by
an even surplus in each row, each at the cost of its ones. Without negative entries and for a binary target,
reading the selection off a point is a bijection onto the binary solutions modulo two that keeps the cost, so
both problems have the same optimum, and one is solvable just when the other is. -/
theorem encode_parity_exact (hcolumns : 0 < n) (hA : ∀ i j, a.entry i j = A i j) :
    ∃ model, parity.encode a (scalars y) = .ok model ∧
      (∀ z, z ∈ model.integerPoints ↔ ∃ x, Exceeds A y x ∧ z = parityPoint A y x) ∧
      (∀ x, Exceeds A y x → Vectors.inner model.cost (parityPoint A y x) = ones x) ∧
      (parity.Suits A y →
        Set.BijOn selection model.integerPoints {x | parity.Selects A y x} ∧
        (∀ z ∈ model.integerPoints, Vectors.inner model.cost z = ones (selection z)) ∧
        (∀ v, IsLeast (Vectors.inner model.cost '' model.integerPoints) v ↔
          ∃ least : ℕ, v = least ∧ IsLeast (ones '' {x | parity.Selects A y x}) least) ∧
        (model.integerPoints.Nonempty ↔ ∃ x, parity.Selects A y x)) := by
  obtain ⟨model, hmodel, pure⟩ := exists_parity a y
  refine ⟨model, ?_, ?_, ?_, ?_⟩
  · unfold encode
    rw [if_neg hcolumns.ne']
    simp only [hmodel]
    rfl
  · intro z
    exact IsParity.feasible_iff pure hA
  · intro x hx
    exact IsParity.inner_eq_ones pure hx.binary
  · intro suits
    have hselects : {x | Exceeds A y x} = {x | parity.Selects A y x} :=
      Set.ext fun x => exceeds_iff_selects suits
    have hbij := IsParity.bijOn_selection pure hA
    rw [hselects] at hbij
    refine ⟨hbij, fun z hz => IsParity.inner_eq_ones_selection pure hA hz, ?_, ?_⟩
    · intro v
      rw [← hselects]
      exact IsParity.isLeast_iff pure hA
    · rw [← Set.image_nonempty (f := selection), hbij.image_eq]
      rfl

/-- Three columns over two rows, of which the last contributes to both. -/
def toggles : Fin 2 → Fin 3 → ℤ :=
  ![![1, 0, 1], ![0, 1, 1]]

/-- To reach one in both rows, the last column is selected alone; the model has that point, at the cost one,
and its integer points correspond to the solutions modulo two. -/
theorem encode_parity_exact_toggles :
    ∃ model, parity.encode (.ofRows #v[#v[1, 0, 1], #v[0, 1, 1]]) (scalars fun _ : Fin 2 => 1) = .ok model ∧
      parityPoint toggles (fun _ => 1) ![0, 0, 1] ∈ model.integerPoints ∧
      Vectors.inner model.cost (parityPoint toggles (fun _ => 1) ![0, 0, 1]) = ones ![0, 0, 1] ∧
      Set.BijOn selection model.integerPoints {x | parity.Selects toggles (fun _ => 1) x} := by
  have hA : ∀ i j, (SparseMatrix.ofRows #v[#v[(1 : Rat), 0, 1], #v[0, 1, 1]]).entry i j = toggles i j := by
    decide +kernel
  obtain ⟨model, hmodel, hpoints, hcost, hsuited⟩ :=
    encode_parity_exact (y := fun _ => 1) (by decide) hA
  have hexceeds : Exceeds toggles (fun _ => 1) ![0, 0, 1] := ⟨by decide, by decide, by decide⟩
  have suits : parity.Suits toggles fun _ => 1 := ⟨by decide, by decide⟩
  exact ⟨model, hmodel, (hpoints _).2 ⟨_, hexceeds, rfl⟩, hcost _ hexceeds, (hsuited suits).1⟩

end Encoding

end IntegerProgram
