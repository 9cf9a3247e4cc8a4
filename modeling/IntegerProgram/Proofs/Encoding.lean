import Mathlib
import IntegerProgram.Model.Encoding
import IntegerProgram.Proofs.BranchBound.Completeness

/-!
# What the encodings mean

Over exact scalars the integer points of an encoded model are the selections that reach the target, and
their cost is the number of selections:

* `Encoding.IsDirect.encodes`: the direct model of an integer matrix has the solutions of `A x = y` in
  natural numbers.
* `Encoding.IsParity.feasible_iff`: the parity model has the points of the binary vectors that exceed the
  target by an even surplus in each row, with half of the surplus beside them.
* `Encoding.exists_surplus_iff`: without negative entries and for a binary target, these are the binary
  solutions modulo two.
-/

namespace IntegerProgram

variable {m n k : Nat}

/-- A whole number that is not negative is a natural number. -/
lemma Rational.exists_natCast {q : Rat} (hwhole : Scalar.IsWhole q) (h : 0 ≤ q) :
    ∃ k : ℕ, q = k := by
  obtain ⟨k, rfl⟩ := Rational.isWhole_iff.1 hwhole
  obtain ⟨l, rfl⟩ := Int.eq_ofNat_of_zero_le (Int.cast_nonneg_iff.1 h)
  exact ⟨l, rfl⟩

/-- A natural number is whole. -/
lemma Rational.isWhole_natCast (k : ℕ) : Scalar.IsWhole (k : Rat) :=
  Rational.isWhole_iff.2 ⟨k, rfl⟩

namespace Model

/-- The parts of a model whose variables are all integer. -/
structure IsPure (model : Model Rat m n) (matrix : SparseMatrix Rat m n) (target cost : Array Rat)
    (bounds : Box Rat) : Prop where
  matrix : model.matrix = matrix
  target : model.target.toArray = target
  cost : model.cost.toArray = cost
  box : model.box = bounds
  integers : ∀ i, i ∈ model.integers

/-- A model is made of parts whose lengths agree. -/
lemma exists_make (matrix : SparseMatrix Rat m n) {target cost : Array Rat} {bounds : Box Rat}
    (htarget : target.size = m) (hcost : cost.size = n) (hbounds : bounds.size = n) :
    ∃ model, make matrix target cost bounds (List.range n) = .ok model ∧
      model.IsPure matrix target cost bounds := by
  have hfinite : (bounds.toList.findIdx? fun i => !Scalar.isFinite i.lower) = none :=
    List.findIdx?_eq_none_iff.2 fun _ _ => rfl
  have hindices : ∀ i ∈ sortIndices (List.range n), i < n := by
    intro i hi
    exact List.mem_range.1 (mem_sortIndices.1 hi)
  unfold make
  rw [dif_pos htarget, dif_pos hcost, dif_pos hbounds, hfinite]
  simp only
  rw [dif_pos hindices]
  refine ⟨_, rfl, rfl, rfl, rfl, rfl, ?_⟩
  intro i
  exact List.mem_pmap.2 ⟨i.val, mem_sortIndices.2 (List.mem_range.2 i.isLt), rfl⟩

/-- The integer points of a model stand for the selections with a property, and their cost is the number
of selections; no point of the box has a negative cost. -/
structure Encodes (model : Model Rat m k) (selects : (Fin n → ℕ) → Prop) : Prop where
  selection : ∀ z, model.box.Holds z → model.IntegerFeasible z →
    ∃ x, selects x ∧ Vectors.inner model.cost z = (∑ j, x j : ℕ)
  point : ∀ x, selects x → ∃ z, model.box.Holds z ∧ model.IntegerFeasible z ∧
    Vectors.inner model.cost z = (∑ j, x j : ℕ)
  nonneg : ∀ z, model.box.Holds z → 0 ≤ Vectors.inner model.cost z

end Model

/-- An entry of a vector is the entry of its array. -/
lemma Vectors.get_of_toArray {α : Type} {v : Vector α n} {values : Array α} (h : v.toArray = values)
    {i : Fin n} {a : α} (ha : values[i.val]? = some a) : v.get i = a := by
  subst h
  rw [Array.getElem?_eq_getElem (by simp), Option.some.injEq] at ha
  exact ha

namespace Encoding

variable {a : SparseMatrix Rat m n} {A : Fin m → Fin n → ℤ} {y : Fin m → ℤ}

/-- The target as an array of scalars. -/
def scalars (y : Fin m → ℤ) : Array Rat :=
  (Vector.ofFn fun i => (y i : Rat)).toArray

/-- There is a scalar for each row. -/
lemma size_scalars (y : Fin m → ℤ) : (scalars y).size = m := by
  simp [scalars]

/-- The scalar of a row. -/
lemma getElem_scalars (y : Fin m → ℤ) (i : Fin m) : (scalars y)[i.val]? = some (y i : Rat) := by
  simp [scalars]

/-! ## The direct model -/

/-- The parts of the direct model. -/
abbrev IsDirect (model : Model Rat m n) (a : SparseMatrix Rat m n) (y : Fin m → ℤ) : Prop :=
  model.IsPure a (scalars y) (Array.replicate n 1) (Array.replicate n .nonneg)

namespace IsDirect

variable {model : Model Rat m n} (pure : IsDirect model a y)
include pure

/-- The cost of a point is the sum of its entries. -/
lemma inner_cost (z : Vector Rat n) : Vectors.inner model.cost z = ∑ j, z.get j := by
  have hone : ∀ j, model.cost.get j = 1 :=
    fun j => Vectors.get_of_toArray pure.cost (by simp)
  simp [Vectors.inner, hone]

/-- The box holds the points without negative entries. -/
lemma holds_iff (z : Vector Rat n) : model.box.Holds z ↔ ∀ j, 0 ≤ z.get j := by
  rw [pure.box]
  refine forall_congr' fun j => ?_
  simp [Interval.Holds, Interval.nonneg, Interval.atLeast]

/-- The right-hand side is the target. -/
lemma get_target (i : Fin m) : model.target.get i = y i :=
  Vectors.get_of_toArray pure.target (getElem_scalars y i)

end IsDirect

/-- The integer points of the direct model are the solutions of the equations in natural numbers. -/
lemma IsDirect.encodes {model : Model Rat m n} (pure : IsDirect model a y)
    (hA : ∀ i j, a.entry i j = A i j) :
    model.Encodes fun x : Fin n → ℕ => ∀ i, ∑ j, A i j * x j = y i := by
  refine ⟨?_, ?_, ?_⟩
  · intro z hz hfeasible
    rw [IsDirect.holds_iff pure] at hz
    choose x hx using fun j =>
      Rational.exists_natCast (hfeasible.integral j (pure.integers j)) (hz j)
    refine ⟨x, ?_, ?_⟩
    · intro i
      have hrow := hfeasible.solves i
      rw [IsDirect.get_target pure, pure.matrix] at hrow
      simp only [hA, hx] at hrow
      exact_mod_cast hrow
    · rw [IsDirect.inner_cost pure]
      simp [hx]
  · intro x hx
    refine ⟨Vector.ofFn fun j => (x j : Rat), ?_, ⟨?_, ?_⟩, ?_⟩
    · rw [IsDirect.holds_iff pure]
      simp
    · intro i
      rw [IsDirect.get_target pure, pure.matrix, ← hx i]
      simp [hA]
    · intro j _
      rw [Vectors.get_ofFn]
      exact Rational.isWhole_natCast (x j)
    · rw [IsDirect.inner_cost pure]
      simp
  · intro z hz
    rw [IsDirect.inner_cost pure]
    exact Finset.sum_nonneg fun j _ => (IsDirect.holds_iff pure z).1 hz j

/-- There is a direct model for every matrix and target. -/
lemma exists_direct (a : SparseMatrix Rat m n) (y : Fin m → ℤ) :
    ∃ model, directModel a (scalars y) = .ok model ∧ IsDirect model a y :=
  Model.exists_make a (size_scalars y) (Array.size_replicate (v := (1 : Rat)))
    (Array.size_replicate (v := Interval.nonneg))

/-- The direct model of an integer matrix has the solutions of the equations in natural numbers. -/
lemma encodes_direct (hA : ∀ i j, a.entry i j = A i j) :
    ∃ model, directModel a (scalars y) = .ok model ∧
      model.Encodes fun x : Fin n → ℕ => ∀ i, ∑ j, A i j * x j = y i := by
  obtain ⟨model, hmake, pure⟩ := exists_direct a y
  exact ⟨model, hmake, pure.encodes hA⟩

/-! ## The parity model -/

/-- The parts of the parity model. -/
abbrev IsParity (model : Model Rat m (n + m)) (a : SparseMatrix Rat m n) (y : Fin m → ℤ) : Prop :=
  model.IsPure (a.beside (SparseMatrix.diagonal (Vector.replicate m (-(1 + 1))))) (scalars y)
    (Array.replicate n 1 ++ Array.replicate m 0)
    (Array.replicate n .unit ++ Array.replicate m .nonneg)

namespace IsParity

variable {model : Model Rat m (n + m)} (pure : IsParity model a y)
include pure

/-- The cost of a point is the sum of its binary entries. -/
lemma inner_cost (z : Vector Rat (n + m)) :
    Vectors.inner model.cost z = ∑ j : Fin n, z.get (j.castAdd m) := by
  have hone : ∀ j : Fin n, model.cost.get (j.castAdd m) = 1 :=
    fun j => Vectors.get_of_toArray pure.cost (by simp [Array.getElem?_append])
  have hzero : ∀ i : Fin m, model.cost.get (i.natAdd n) = 0 :=
    fun i => Vectors.get_of_toArray pure.cost (by simp)
  simp [Vectors.inner, Fin.sum_univ_add, hone, hzero]

/-- The box holds the points with selections between zero and one and no negative surplus. -/
lemma holds_iff (z : Vector Rat (n + m)) : model.box.Holds z ↔
    (∀ j : Fin n, 0 ≤ z.get (j.castAdd m) ∧ z.get (j.castAdd m) ≤ 1) ∧
    ∀ i : Fin m, 0 ≤ z.get (i.natAdd n) := by
  rw [pure.box]
  unfold Box.Holds
  rw [Fin.forall_fin_add]
  refine and_congr (forall_congr' fun j => ?_) (forall_congr' fun i => ?_)
  · simp [Interval.Holds, Interval.unit, Interval.between, Array.getElem?_append]
  · simp [Interval.Holds, Interval.nonneg, Interval.atLeast]

/-- The equations subtract twice the surplus of a row. -/
lemma sum_row (hA : ∀ i j, a.entry i j = A i j) (z : Vector Rat (n + m)) (i : Fin m) :
    ∑ c, model.matrix.entry i c * z.get c =
      ∑ j, A i j * z.get (j.castAdd m) - 2 * z.get (i.natAdd n) := by
  rw [pure.matrix, Fin.sum_univ_add]
  simp only [SparseMatrix.entry_beside_left, SparseMatrix.entry_beside_right,
    SparseMatrix.entry_diagonal, Vectors.get_replicate, hA, ite_mul, zero_mul,
    Finset.sum_ite_eq, Finset.mem_univ, if_true]
  ring

/-- The right-hand side is the target. -/
lemma get_target (i : Fin m) : model.target.get i = y i :=
  Vectors.get_of_toArray pure.target (getElem_scalars y i)

end IsParity

/-- A binary selection that exceeds the target by an even surplus in each row. -/
structure Exceeds (A : Fin m → Fin n → ℤ) (y : Fin m → ℤ) (x : Fin n → ℕ) : Prop where
  binary : ∀ j, x j = 0 ∨ x j = 1
  parity : ∀ i, ∑ j, A i j * x j ≡ y i [ZMOD 2]
  reaches : ∀ i, y i ≤ ∑ j, A i j * x j

/-- The point of a selection: the selection itself and half of the surplus of each row. -/
def parityPoint (A : Fin m → Fin n → ℤ) (y : Fin m → ℤ) (x : Fin n → ℕ) : Vector Rat (n + m) :=
  Vector.ofFn (Fin.append (fun j => (x j : Rat)) fun i => ((∑ j, A i j * x j - y i : ℤ) : Rat) / 2)

@[simp] lemma get_parityPoint_castAdd (A : Fin m → Fin n → ℤ) (y : Fin m → ℤ) (x : Fin n → ℕ)
    (j : Fin n) : (parityPoint A y x).get (j.castAdd m) = x j := by
  rw [parityPoint, Vectors.get_ofFn, Fin.append_left]

lemma get_parityPoint_natAdd {x : Fin n → ℕ} {i : Fin m} {k : ℕ}
    (hk : ∑ j, A i j * x j = y i + 2 * k) : (parityPoint A y x).get (i.natAdd n) = k := by
  rw [parityPoint, Vectors.get_ofFn, Fin.append_right, hk]
  push_cast
  ring

/-- A row is reached with the right parity just when its surplus is an even number. -/
lemma exists_surplus {total target : ℤ} :
    (∃ surplus : ℕ, total = target + 2 * surplus) ↔
      total ≡ target [ZMOD 2] ∧ target ≤ total := by
  constructor
  · rintro ⟨surplus, rfl⟩
    exact ⟨Int.modEq_iff_dvd.2 ⟨-surplus, by ring⟩, by omega⟩
  · rintro ⟨hparity, hreaches⟩
    obtain ⟨d, hd⟩ := Int.modEq_iff_dvd.1 hparity.symm
    exact ⟨d.toNat, by omega⟩

lemma exceeds_iff {x : Fin n → ℕ} : Exceeds A y x ↔
    (∀ j, x j ≤ 1) ∧ ∀ i, ∃ surplus : ℕ, ∑ j, A i j * x j = y i + 2 * surplus := by
  simp only [exists_surplus, forall_and, Nat.le_one_iff_eq_zero_or_eq_one]
  exact ⟨fun h => ⟨h.binary, h.parity, h.reaches⟩, fun h => ⟨h.1, h.2.1, h.2.2⟩⟩

/-- An integer point of the parity model is the point of a binary selection, and what it has beside that is
half of the surplus of each row. -/
lemma IsParity.exists_exceeds {model : Model Rat m (n + m)} (pure : IsParity model a y)
    (hA : ∀ i j, a.entry i j = A i j) {z : Vector Rat (n + m)} (hz : model.box.Holds z)
    (hfeasible : model.IntegerFeasible z) : ∃ x, Exceeds A y x ∧ z = parityPoint A y x := by
  obtain ⟨hunit, hsurplus⟩ := (IsParity.holds_iff pure z).1 hz
  choose x hx using fun j : Fin n =>
    Rational.exists_natCast (hfeasible.integral _ (pure.integers (j.castAdd m))) (hunit j).1
  choose k hk using fun i : Fin m =>
    Rational.exists_natCast (hfeasible.integral _ (pure.integers (i.natAdd n))) (hsurplus i)
  have hrow : ∀ i, ∑ j, A i j * x j = y i + 2 * k i := by
    intro i
    have hsolves := hfeasible.solves i
    rw [IsParity.sum_row pure hA, IsParity.get_target pure, hk] at hsolves
    simp only [hx] at hsolves
    have hsolves : (∑ j, A i j * (x j : Rat)) = y i + 2 * k i := by linarith
    exact_mod_cast hsolves
  refine ⟨x, exceeds_iff.2 ⟨?_, fun i => ⟨k i, hrow i⟩⟩, ?_⟩
  · intro j
    have hle := (hunit j).2
    rw [hx] at hle
    exact_mod_cast hle
  · apply Vectors.ext_get
    rw [Fin.forall_fin_add]
    constructor
    · intro j
      rw [get_parityPoint_castAdd, hx]
    · intro i
      rw [get_parityPoint_natAdd (hrow i), hk]

/-- The point of a binary selection that exceeds the target by an even surplus in each row is an integer point
of the parity model. -/
lemma IsParity.feasible_parityPoint {model : Model Rat m (n + m)} (pure : IsParity model a y)
    (hA : ∀ i j, a.entry i j = A i j) {x : Fin n → ℕ} (hx : Exceeds A y x) :
    model.box.Holds (parityPoint A y x) ∧ model.IntegerFeasible (parityPoint A y x) := by
  obtain ⟨hbinary, hsurplus⟩ := exceeds_iff.1 hx
  choose k hk using hsurplus
  refine ⟨(IsParity.holds_iff pure _).2 ⟨?_, ?_⟩, ?_, ?_⟩
  · intro j
    rw [get_parityPoint_castAdd]
    exact ⟨Nat.cast_nonneg _, by exact_mod_cast hbinary j⟩
  · intro i
    rw [get_parityPoint_natAdd (hk i)]
    exact Nat.cast_nonneg _
  · intro i
    rw [IsParity.sum_row pure hA, IsParity.get_target pure, get_parityPoint_natAdd (hk i)]
    have hrow : (∑ j, A i j * (x j : Rat)) = y i + 2 * k i := by exact_mod_cast hk i
    simp [hrow]
  · intro c _
    refine Fin.addCases (fun j => ?_) (fun i => ?_) c
    · rw [get_parityPoint_castAdd]
      exact Rational.isWhole_natCast (x j)
    · rw [get_parityPoint_natAdd (hk i)]
      exact Rational.isWhole_natCast (k i)

/-- The integer points of the parity model are the points of the binary selections that exceed the target by
an even surplus in each row. -/
lemma IsParity.feasible_iff {model : Model Rat m (n + m)} (pure : IsParity model a y)
    (hA : ∀ i j, a.entry i j = A i j) {z : Vector Rat (n + m)} :
    model.box.Holds z ∧ model.IntegerFeasible z ↔ ∃ x, Exceeds A y x ∧ z = parityPoint A y x := by
  constructor
  · rintro ⟨hz, hfeasible⟩
    exact IsParity.exists_exceeds pure hA hz hfeasible
  · rintro ⟨x, hx, rfl⟩
    exact IsParity.feasible_parityPoint pure hA hx

/-- The point of a selection costs as much as columns are selected. -/
lemma IsParity.inner_parityPoint {model : Model Rat m (n + m)} (pure : IsParity model a y)
    (A : Fin m → Fin n → ℤ) (x : Fin n → ℕ) :
    Vectors.inner model.cost (parityPoint A y x) = (∑ j, x j : ℕ) := by
  rw [IsParity.inner_cost pure]
  simp

/-- The integer points of the parity model are the binary vectors that exceed the target by an even surplus
in each row. -/
lemma IsParity.encodes {model : Model Rat m (n + m)} (pure : IsParity model a y)
    (hA : ∀ i j, a.entry i j = A i j) :
    model.Encodes fun x : Fin n → ℕ => (∀ j, x j ≤ 1) ∧
      ∀ i, ∃ surplus : ℕ, ∑ j, A i j * x j = y i + 2 * surplus := by
  refine ⟨?_, ?_, ?_⟩
  · intro z hz hfeasible
    obtain ⟨x, hx, rfl⟩ := (IsParity.feasible_iff pure hA).1 ⟨hz, hfeasible⟩
    exact ⟨x, exceeds_iff.1 hx, IsParity.inner_parityPoint pure A x⟩
  · intro x hx
    obtain ⟨hz, hfeasible⟩ := (IsParity.feasible_iff pure hA).2 ⟨x, exceeds_iff.2 hx, rfl⟩
    exact ⟨_, hz, hfeasible, IsParity.inner_parityPoint pure A x⟩
  · intro z hz
    rw [IsParity.inner_cost pure]
    exact Finset.sum_nonneg fun j _ => (((IsParity.holds_iff pure z).1 hz).1 j).1

/-- There is a parity model for every matrix and target. -/
lemma exists_parity (a : SparseMatrix Rat m n) (y : Fin m → ℤ) :
    ∃ model, parityModel a (scalars y) = .ok model ∧ IsParity model a y :=
  Model.exists_make (a.beside (SparseMatrix.diagonal (Vector.replicate m (-(1 + 1) : Rat))))
    (size_scalars y)
    (show (Array.replicate n (1 : Rat) ++ Array.replicate m 0).size = n + m by simp)
    (show (Array.replicate n Interval.unit ++
      Array.replicate m (Interval.nonneg : Interval Rat)).size = n + m by simp)

/-- The parity model of an integer matrix has the binary vectors that exceed the target by an even surplus
in each row. -/
lemma encodes_parity (hA : ∀ i j, a.entry i j = A i j) :
    ∃ model, parityModel a (scalars y) = .ok model ∧
      model.Encodes fun x : Fin n → ℕ => (∀ j, x j ≤ 1) ∧
        ∀ i, ∃ surplus : ℕ, ∑ j, A i j * x j = y i + 2 * surplus := by
  obtain ⟨model, hmake, pure⟩ := exists_parity a y
  exact ⟨model, hmake, pure.encodes hA⟩

/-- A row without negative entries exceeds a binary target by an even surplus if it agrees with it modulo
two. -/
lemma exists_surplus_iff {total target : ℤ} (htotal : 0 ≤ total)
    (htarget : target = 0 ∨ target = 1) :
    (∃ surplus : ℕ, total = target + 2 * surplus) ↔ total ≡ target [ZMOD 2] := by
  rw [exists_surplus]
  refine and_iff_left_of_imp fun hparity => ?_
  obtain ⟨d, hd⟩ := Int.modEq_iff_dvd.1 hparity
  omega

end Encoding

end IntegerProgram
