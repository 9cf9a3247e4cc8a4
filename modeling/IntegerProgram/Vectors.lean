/-!
# Vectors by position

Entries of vectors are read with `Vector.get` and replaced with `replaceAt`, both at a position that is
in range by its type. The lemmas say what is read after an operation.
-/

namespace IntegerProgram.Vectors

variable {α β γ : Type} {n : Nat}

/-- The vector with the entry at one position replaced. -/
def replaceAt (v : Vector α n) (i : Fin n) (a : α) : Vector α n :=
  v.set i a i.isLt

/-- Reading is indexing. -/
theorem get_eq (v : Vector α n) (i : Fin n) : v.get i = v[i.val] :=
  rfl

/-- A vector is determined by its entries. -/
theorem ext_get {v w : Vector α n} (h : ∀ i, v.get i = w.get i) : v = w :=
  Vector.ext fun i hi => h ⟨i, hi⟩

@[simp] theorem get_ofFn (f : Fin n → α) (i : Fin n) : (Vector.ofFn f).get i = f i := by
  rw [get_eq, Vector.getElem_ofFn]

@[simp] theorem get_map (f : α → β) (v : Vector α n) (i : Fin n) :
    (v.map f).get i = f (v.get i) := by
  rw [get_eq, get_eq, Vector.getElem_map]

@[simp] theorem get_zipWith (f : α → β → γ) (v : Vector α n) (w : Vector β n) (i : Fin n) :
    (Vector.zipWith f v w).get i = f (v.get i) (w.get i) := by
  rw [get_eq, get_eq, get_eq, Vector.getElem_zipWith]

@[simp] theorem get_replicate (a : α) (i : Fin n) : (Vector.replicate n a).get i = a := by
  rw [get_eq, Vector.getElem_replicate]

/-- After a replacement the new entry stands at its position and the others are as before. -/
theorem get_replaceAt (v : Vector α n) (i j : Fin n) (a : α) :
    (replaceAt v i a).get j = if i = j then a else v.get j := by
  rw [get_eq, get_eq, replaceAt, Vector.getElem_set]
  simp only [Fin.ext_iff]

end IntegerProgram.Vectors
