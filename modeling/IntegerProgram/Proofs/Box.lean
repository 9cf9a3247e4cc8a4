import Mathlib
import IntegerProgram.Cut
import IntegerProgram.Proofs.Lawful

/-!
# Points in boxes

When a point lies in a box, and what cuts do to the points of a box, for every lawful number system:

* `Cut.holds_apply`: a cut leaves of an interval the values that it admits.
* `Box.holds_cutAll`: the points of a box after a list of cuts are the points of the box that all cuts
  admit.
* `Box.Holds.not_isEmpty`: a box with a point is not empty.
-/

namespace IntegerProgram

variable {α : Type} [Scalar α] {n : Nat}

/-- A value lies between the bounds of an interval. -/
def Interval.Holds (i : Interval α) (v : α) : Prop :=
  i.lower ≤ v ∧ ∀ u ∈ i.upper, v ≤ u

/-- Every variable of a point has an interval in the box and lies in it. -/
def Box.Holds (box : Box α) (z : Vector α n) : Prop :=
  ∀ j : Fin n, ∃ i ∈ box[j.val]?, i.Holds (z.get j)

/-- A point has an admitted value at the variable of a cut. -/
def Cut.AdmitsPoint (c : Cut α) (z : Vector α n) : Prop :=
  ∀ j : Fin n, j.val = c.var → c.admits (z.get j) = true

instance (i : Interval α) (v : α) : Decidable (i.Holds v) :=
  inferInstanceAs (Decidable (_ ∧ ∀ u ∈ i.upper, _))

instance (box : Box α) (z : Vector α n) : Decidable (box.Holds z) :=
  inferInstanceAs (Decidable (∀ j : Fin n, ∃ i ∈ box[j.val]?, _))

instance (c : Cut α) (z : Vector α n) : Decidable (c.AdmitsPoint z) :=
  inferInstanceAs (Decidable (∀ j : Fin n, j.val = c.var → _))

/-- The bounds of an interval are defined. -/
structure Interval.IsDefined (i : Interval α) : Prop where
  lower : Scalar.isNaN i.lower = false
  upper : ∀ u ∈ i.upper, Scalar.isNaN u = false

/-- The bounds of a cut are defined. -/
structure Cut.IsDefined (c : Cut α) : Prop where
  lower : ∀ l ∈ c.lower, Scalar.isNaN l = false
  upper : ∀ u ∈ c.upper, Scalar.isNaN u = false

instance (i : Interval α) : Decidable i.IsDefined :=
  decidable_of_iff (Scalar.isNaN i.lower = false ∧ ∀ u ∈ i.upper, Scalar.isNaN u = false)
    ⟨fun h => ⟨h.1, h.2⟩, fun h => ⟨h.lower, h.upper⟩⟩

instance (c : Cut α) : Decidable c.IsDefined :=
  decidable_of_iff ((∀ l ∈ c.lower, Scalar.isNaN l = false) ∧ ∀ u ∈ c.upper, Scalar.isNaN u = false)
    ⟨fun h => ⟨h.1, h.2⟩, fun h => ⟨h.lower, h.upper⟩⟩

/-- A cut at a variable of the box replaces the interval of that variable. -/
lemma Box.cut_eq_ok {box : Box α} {c : Cut α} (h : c.var < box.size) :
    box.cut c = .ok (box.set c.var (c.apply box[c.var])) := by
  unfold Box.cut Fault.modify
  rw [dif_pos h]

/-- Cuts at variables of the box can all be made. -/
lemma Box.exists_cutAll {box : Box α} {cuts : List (Cut α)} (h : ∀ c ∈ cuts, c.var < box.size) :
    ∃ merged : Box α, box.cutAll cuts = .ok merged ∧ merged.size = box.size := by
  induction cuts generalizing box with
  | nil => exact ⟨box, rfl, rfl⟩
  | cons c rest ih =>
    have hc : c.var < box.size := h c List.mem_cons_self
    have hrest : ∀ c' ∈ rest, c'.var < (box.set c.var (c.apply box[c.var])).size := by
      intro c' hc'
      rw [Array.size_set]
      exact h c' (List.mem_cons_of_mem _ hc')
    obtain ⟨merged, hm, hsize⟩ := ih hrest
    refine ⟨merged, ?_, by rw [hsize, Array.size_set]⟩
    unfold Box.cutAll
    rw [List.foldlM_cons, Box.cut_eq_ok hc]
    exact hm

variable [LawfulScalar α]

namespace Interval.Holds

variable {i : Interval α} {v : α}

/-- The bounds of an interval that holds a value are defined. -/
lemma isDefined (h : i.Holds v) : i.IsDefined where
  lower := (LawfulScalar.defined_of_le h.1).1
  upper := by
    intro u hu
    exact (LawfulScalar.defined_of_le (h.2 u hu)).2

/-- An interval that holds a value is not empty. -/
lemma not_isEmpty (h : i.Holds v) : i.isEmpty = false := by
  unfold Interval.isEmpty
  cases e : i.upper with
  | none => rfl
  | some u =>
    simp only [Option.any_some, decide_eq_false_iff_not]
    exact LawfulScalar.not_lt h.1 (h.2 u e)

end Interval.Holds

namespace Cut

/-- The lower side of a defined cut is defined, also where it is the bottom of the number system. -/
lemma IsDefined.lower_or_bottom {c : Cut α} (h : c.IsDefined) :
    ∀ l ∈ (c.lower <|> (Scalar.bottom? : Option α)), Scalar.isNaN l = false := by
  intro l hl
  cases e : c.lower with
  | none =>
    rw [e] at hl
    exact (LawfulScalar.bottom_le l hl).1
  | some l' =>
    rw [e] at hl
    cases hl
    exact h.lower l e

/-- A cut leaves of an interval the values that it admits. -/
lemma holds_apply {c : Cut α} {i : Interval α} (hc : c.IsDefined) (hi : i.IsDefined) (v : α) :
    (c.apply i).Holds v ↔ i.Holds v ∧ c.admits v = true := by
  have hlower : Scalar.raise i.lower c.lower ≤ v ↔
      i.lower ≤ v ∧ Scalar.isAbove v c.lower = true := by
    unfold Scalar.raise Scalar.isAbove
    cases e : (c.lower <|> (Scalar.bottom? : Option α)) with
    | none => simp
    | some l =>
      simp only [Option.all_some, decide_eq_true_eq]
      exact LawfulScalar.max_le_iff hi.lower (hc.lower_or_bottom l e) v
  have hupper : (∀ u ∈ tighter i.upper c.upper, v ≤ u) ↔
      (∀ u ∈ i.upper, v ≤ u) ∧ Scalar.isWithin v c.upper = true := by
    unfold Scalar.isWithin
    cases hiu : i.upper with
    | none => cases hcu : c.upper <;> simp [tighter]
    | some a =>
      cases hcu : c.upper with
      | none => simp [tighter]
      | some b =>
        simp only [tighter, Option.mem_some_iff, forall_eq', Option.all_some, decide_eq_true_eq]
        exact LawfulScalar.le_min_iff (hi.upper a hiu) (hc.upper b hcu) v
  unfold Interval.Holds admits apply
  rw [hlower, hupper, Bool.and_eq_true]
  tauto

/-- A cut leaves defined bounds. -/
lemma isDefined_apply {c : Cut α} {i : Interval α} (hc : c.IsDefined) (hi : i.IsDefined) :
    (c.apply i).IsDefined where
  lower := by
    show Scalar.isNaN (Scalar.raise i.lower c.lower) = false
    unfold Scalar.raise
    cases e : (c.lower <|> (Scalar.bottom? : Option α)) with
    | none => exact hi.lower
    | some l => exact LawfulScalar.defined_max hi.lower (hc.lower_or_bottom l e)
  upper := by
    intro u hu
    have hu : u ∈ tighter i.upper c.upper := hu
    cases hiu : i.upper with
    | none =>
      cases hcu : c.upper with
      | none =>
        rw [hiu, hcu] at hu
        cases hu
      | some b =>
        rw [hiu, hcu] at hu
        cases hu
        exact hc.upper u hcu
    | some a =>
      cases hcu : c.upper with
      | none =>
        rw [hiu, hcu] at hu
        cases hu
        exact hi.upper u hiu
      | some b =>
        rw [hiu, hcu] at hu
        cases hu
        exact LawfulScalar.defined_min (hi.upper a hiu) (hc.upper b hcu)

end Cut

namespace Box

/-- The bounds of all intervals are defined. -/
def IsDefined (box : Box α) : Prop :=
  ∀ i ∈ box, i.IsDefined

instance (box : Box α) : Decidable box.IsDefined :=
  inferInstanceAs (Decidable (∀ i ∈ box, i.IsDefined))

/-- The bounds of a box with a point are defined. -/
lemma Holds.isDefined {box : Box α} {z : Vector α n} (h : box.Holds z) (hsize : box.size = n) :
    box.IsDefined := by
  intro i hi
  obtain ⟨k, hk, rfl⟩ := Array.mem_iff_getElem.1 hi
  obtain ⟨i', hi', hv⟩ := h ⟨k, hsize ▸ hk⟩
  rw [Option.mem_def, Array.getElem?_eq_getElem hk, Option.some.injEq] at hi'
  exact hi' ▸ hv.isDefined

/-- A box with a point is not empty. -/
lemma Holds.not_isEmpty {box : Box α} {z : Vector α n} (h : box.Holds z) (hsize : box.size = n) :
    box.isEmpty = false := by
  unfold Box.isEmpty
  rw [Array.any_eq_false]
  intro k hk
  obtain ⟨i, hi, hv⟩ := h ⟨k, hsize ▸ hk⟩
  rw [Option.mem_def, Array.getElem?_eq_getElem hk, Option.some.injEq] at hi
  rw [hi, hv.not_isEmpty]
  exact Bool.false_ne_true

/-- The points of a box after a cut are the points of the box that the cut admits. -/
lemma holds_cut {box : Box α} {c : Cut α} (hbox : box.IsDefined) (hc : c.IsDefined)
    (h : c.var < box.size) (z : Vector α n) :
    Box.Holds (box.set c.var (c.apply box[c.var])) z ↔ box.Holds z ∧ c.AdmitsPoint z := by
  have hi : box[c.var].IsDefined := hbox _ (Array.getElem_mem h)
  have hj : ∀ j : Fin n, (∃ i ∈ (box.set c.var (c.apply box[c.var]))[j.val]?, i.Holds (z.get j)) ↔
      (∃ i ∈ box[j.val]?, i.Holds (z.get j)) ∧ (j.val = c.var → c.admits (z.get j) = true) := by
    intro j
    rw [Array.getElem?_set]
    by_cases e : c.var = j.val
    · rw [if_pos e, ← e, Array.getElem?_eq_getElem h]
      simp only [Option.mem_some_iff, exists_eq_left', true_implies]
      exact Cut.holds_apply hc hi (z.get j)
    · rw [if_neg e]
      exact ⟨fun hold => ⟨hold, fun e' => absurd e'.symm e⟩, And.left⟩
  unfold Box.Holds Cut.AdmitsPoint
  rw [← forall_and]
  exact forall_congr' hj

/-- A cut keeps the bounds of a box defined. -/
lemma IsDefined.cut {box : Box α} {c : Cut α} (hbox : box.IsDefined) (hc : c.IsDefined)
    (h : c.var < box.size) : Box.IsDefined (box.set c.var (c.apply box[c.var])) := by
  intro i hi
  rcases Array.mem_or_eq_of_mem_set hi with hi | rfl
  · exact hbox i hi
  · exact Cut.isDefined_apply hc (hbox _ (Array.getElem_mem h))

/-- The points of a box after a list of cuts are the points of the box that all cuts admit. -/
lemma holds_cutAll {box merged : Box α} {cuts : List (Cut α)} (hbox : box.IsDefined)
    (hcuts : ∀ c ∈ cuts, c.IsDefined ∧ c.var < box.size) (hm : box.cutAll cuts = .ok merged)
    (z : Vector α n) : merged.Holds z ↔ box.Holds z ∧ ∀ c ∈ cuts, c.AdmitsPoint z := by
  induction cuts generalizing box with
  | nil =>
    cases hm
    simp
  | cons c rest ih =>
    obtain ⟨hc, hvar⟩ := hcuts c List.mem_cons_self
    unfold Box.cutAll at hm
    rw [List.foldlM_cons, cut_eq_ok hvar] at hm
    rw [ih (hbox.cut hc hvar) (by
      intro c' hc'
      rw [Array.size_set]
      exact hcuts c' (List.mem_cons_of_mem _ hc')) hm, holds_cut hbox hc hvar, and_assoc,
      List.forall_mem_cons]

end Box

end IntegerProgram
