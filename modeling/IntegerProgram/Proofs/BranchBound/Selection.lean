import Mathlib
import IntegerProgram.BranchBound.Decision
import IntegerProgram.Vectors

/-!
# What a branching rule decides

At a point with a value for every variable no rule faults, and both rules look for the integer variables
that are off the whole numbers by more than the tolerance (`Model.splitAt?`). A decision splits such a
variable (`BranchingRule.select_some`), and no decision means that there is none
(`BranchingRule.select_none`). All of it holds for every number system.
-/

namespace IntegerProgram

variable {α : Type} {m n : Nat}

/-- Every entry of a vector can be read. -/
@[simp] lemma Fault.entry_toArray (x : Vector α n) (i : Fin n) :
    Fault.entry x.toArray i.val = .ok (x.get i) := by
  unfold Fault.entry
  rw [Array.getElem?_eq_getElem (by simp)]
  rfl

variable [Scalar α]

namespace Model

variable {model : Model α m n} {x : Vector α n} {tol : α}

/-- The decision to split a variable of a point, if its value is off the whole numbers by more than a
tolerance. -/
def splitAt? (x : Vector α n) (tol : α) (i : Fin n) : Option (Decision α) :=
  if tol < Scalar.fractionality (x.get i) then some (.split i (x.get i)) else none

/-- The entry of a variable of a point in the list of fractional variables, if it is one. -/
def fractionalAt? (x : Vector α n) (tol : α) (i : Fin n) : Option (Fractional α) :=
  if tol < Scalar.fractionality (x.get i) then
    some ⟨i, x.get i, Scalar.fractionality (x.get i)⟩
  else none

/-- A decision splits its variable at a value off the whole numbers. -/
lemma splitAt?_eq_some {i : Fin n} {d : Decision α} (h : splitAt? x tol i = some d) :
    tol < Scalar.fractionality (x.get i) ∧ d = .split i (x.get i) := by
  unfold splitAt? at h
  split at h
  · rename_i hoff
    exact ⟨hoff, (Option.some.inj h).symm⟩
  · cases h

/-- A variable without a decision has a value near a whole number. -/
lemma splitAt?_eq_none {i : Fin n} (h : splitAt? x tol i = none) :
    ¬ tol < Scalar.fractionality (x.get i) := by
  intro hoff
  unfold splitAt? at h
  rw [if_pos hoff] at h
  cases h

/-- The fractional variable that is on the list leads to the decision to split it. -/
lemma map_fractionalAt? (i : Fin n) :
    (fractionalAt? x tol i).map (fun f => Decision.split f.var f.value) = splitAt? x tol i := by
  unfold fractionalAt? splitAt?
  split <;> rfl

/-- The fractional variables of a point. -/
lemma fractionals_eq (model : Model α m n) (x : Vector α n) (tol : α) :
    model.fractionals x.toArray tol = .ok (model.integers.filterMap (fractionalAt? x tol)) := by
  have hread : (model.integerIndices.mapM fun i => do
      return (i, ← Fault.entry x.toArray i)) =
        Except.ok (model.integers.map fun i => (i.val, x.get i)) := by
    unfold integerIndices
    induction model.integers with
    | nil => rfl
    | cons i rest ih =>
      rw [List.map_cons, List.mapM_cons, ih, Fault.entry_toArray]
      rfl
  unfold fractionals
  rw [hread]
  show Except.ok _ = Except.ok _
  rw [List.filterMap_map]
  rfl

/-- The test of integrality of a point with a value for every variable. -/
lemma isIntegral_eq (model : Model α m n) (x : Vector α n) (tol : α) :
    model.isIntegral x.toArray tol =
      .ok (model.integers.all fun i => decide (Scalar.fractionality (x.get i) ≤ tol)) := by
  unfold isIntegral integerIndices
  induction model.integers with
  | nil => rfl
  | cons i rest ih =>
    have htest : (do return decide (Scalar.fractionality (← Fault.entry x.toArray i.val) ≤ tol)) =
        (Except.ok (decide (Scalar.fractionality (x.get i) ≤ tol)) : Except Fault Bool) := by
      rw [Fault.entry_toArray]
      rfl
    rw [List.map_cons, List.allM, htest, List.all_cons]
    cases decide (Scalar.fractionality (x.get i) ≤ tol) with
    | false => rfl
    | true => exact ih

end Model

namespace BranchingRule

variable {model : Model α m n} {x : Vector α n} {tol : α} {d : Decision α}

/-- The first rule takes the first integer variable to split. -/
lemma first_eq (model : Model α m n) (x : Vector α n) (tol : α) :
    first model x.toArray tol = .ok (model.integers.findSome? (Model.splitAt? x tol)) := by
  unfold first Model.integerIndices
  induction model.integers with
  | nil => rfl
  | cons i rest ih =>
    have hdecide : (do
        let v ← Fault.entry x.toArray i.val
        return if tol < Scalar.fractionality v then some (.split i.val v) else none) =
          Except.ok (Model.splitAt? x tol i) := by
      rw [Fault.entry_toArray]
      rfl
    rw [List.map_cons, List.findSomeM?_cons, hdecide, ih, List.findSome?_cons]
    cases Model.splitAt? x tol i with
    | none => rfl
    | some d => rfl

/-- The other rule takes the farthest of the fractional variables. -/
lemma most_eq (model : Model α m n) (x : Vector α n) (tol : α) :
    most model x.toArray tol =
      .ok (((model.integers.filterMap (Model.fractionalAt? x tol)).foldl farther none).map
        fun f => .split f.var f.value) := by
  rw [most, Model.fractionals_eq]
  rfl

/-- No rule faults at a point with a value for every variable. -/
lemma exists_select (rule : BranchingRule) (model : Model α m n) (x : Vector α n) (tol : α) :
    ∃ choice, rule.select model x.toArray tol = .ok choice := by
  cases rule with
  | firstFractional => exact ⟨_, first_eq model x tol⟩
  | mostFractional => exact ⟨_, most_eq model x tol⟩

/-- The farther of two entries is one of them. -/
lemma farther_cases (best : Option (Fractional α)) (f : Fractional α) :
    farther best f = some f ∨ (farther best f = best ∧ best ≠ none) := by
  cases best with
  | none => exact .inl rfl
  | some b =>
    by_cases h : b.distance < f.distance
    · exact .inl (if_pos h)
    · exact .inr ⟨if_neg h, nofun⟩

/-- A scan for the farthest entry ends at an entry of the list or at its start. -/
lemma foldl_farther_mem {fs : List (Fractional α)} {best : Option (Fractional α)}
    {f : Fractional α} (h : fs.foldl farther best = some f) : f ∈ fs ∨ best = some f := by
  induction fs generalizing best with
  | nil => exact .inr h
  | cons g rest ih =>
    rcases ih h with hmem | hbest
    · exact .inl (List.mem_cons_of_mem _ hmem)
    · rcases farther_cases best g with hg | ⟨hg, -⟩
      · rw [hg] at hbest
        cases hbest
        exact .inl List.mem_cons_self
      · exact .inr (hg ▸ hbest)

/-- A scan for the farthest entry finds nothing in the empty list only. -/
lemma foldl_farther_none {fs : List (Fractional α)} {best : Option (Fractional α)}
    (h : fs.foldl farther best = none) : fs = [] ∧ best = none := by
  induction fs generalizing best with
  | nil => exact ⟨rfl, h⟩
  | cons g rest ih =>
    have hnone := (ih h).2
    rcases farther_cases best g with hg | ⟨hg, hbest⟩
    · rw [hg] at hnone
      cases hnone
    · exact absurd (hg ▸ hnone) hbest

/-- A decision splits an integer variable at a value off the whole numbers. -/
lemma select_some {rule : BranchingRule} (h : rule.select model x.toArray tol = .ok (some d)) :
    ∃ i ∈ model.integers, tol < Scalar.fractionality (x.get i) ∧ d = .split i (x.get i) := by
  cases rule with
  | firstFractional =>
    rw [select, first_eq, Except.ok.injEq] at h
    obtain ⟨i, hi, hd⟩ := List.exists_of_findSome?_eq_some h
    exact ⟨i, hi, Model.splitAt?_eq_some hd⟩
  | mostFractional =>
    rw [select, most_eq, Except.ok.injEq] at h
    obtain ⟨f, hf, hd⟩ := Option.map_eq_some_iff.1 h
    obtain hmem | hstart := foldl_farther_mem hf
    · obtain ⟨i, hi, hif⟩ := List.mem_filterMap.1 hmem
      refine ⟨i, hi, Model.splitAt?_eq_some ?_⟩
      rw [← Model.map_fractionalAt?, hif, Option.map_some, hd]
    · cases hstart

/-- No decision means that all integer variables are near the whole numbers. -/
lemma select_none {rule : BranchingRule} (h : rule.select model x.toArray tol = .ok none) :
    ∀ i ∈ model.integers, ¬ tol < Scalar.fractionality (x.get i) := by
  intro i hi
  apply Model.splitAt?_eq_none
  cases rule with
  | firstFractional =>
    rw [select, first_eq, Except.ok.injEq] at h
    exact List.findSome?_eq_none_iff.1 h i hi
  | mostFractional =>
    rw [select, most_eq, Except.ok.injEq] at h
    have hempty := (foldl_farther_none (Option.map_eq_none_iff.1 h)).1
    rw [← Model.map_fractionalAt?, List.filterMap_eq_nil_iff.1 hempty i hi]
    rfl

end BranchingRule

end IntegerProgram
