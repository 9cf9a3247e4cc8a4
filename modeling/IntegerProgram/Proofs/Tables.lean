import Mathlib
import IntegerProgram.Fault

/-!
# Loops over tables

Loops over indices and the arrays they read and overwrite, where every index may be a fault. A loop is
followed either through its states (`Fault.loop_eq`) or along a fold (`Fault.loop_eq_foldl`). Arrays and
tables are given by functions on the natural numbers (`upTo`, `Grid.tabulate`), so that what stands in them
after a change can be said without bounds; only the index of the change has to be in range.
-/

namespace IntegerProgram

variable {σ τ α β : Type} {n : Nat}

/-! ## Loops -/

namespace Fault

/-- The loop over the indices below a bound. -/
def loop (count : Nat) (body : σ → Nat → Except Fault σ) (state : σ) : Except Fault σ :=
  (List.range count).foldlM body state

@[simp] lemma ok_bind {ε : Type} (b : β) (next : β → Except ε σ) : (Except.ok b >>= next) = next b :=
  rfl

/-- A loop whose states are known one after the other. -/
lemma loop_eq {count : Nat} {body : σ → Nat → Except Fault σ} (states : Nat → σ)
    (h : ∀ k < count, body (states k) k = .ok (states (k + 1))) :
    loop count body (states 0) = .ok (states count) := by
  induction count with
  | zero => rfl
  | succ count ih =>
    have hbefore := ih fun k hk => h k (Nat.lt_succ_of_lt hk)
    unfold loop at hbefore ⊢
    rw [List.range_succ, List.foldlM_append, hbefore, ok_bind, List.foldlM_cons,
      h count (Nat.lt_succ_self count)]
    rfl

/-- A loop that follows a fold step by step. -/
lemma loop_eq_foldl {count : Nat} {body : σ → Nat → Except Fault σ} {step : τ → Fin count → τ}
    (view : τ → σ) (h : ∀ s i, body (view s) i.val = .ok (view (step s i))) (s : τ) :
    loop count body (view s) = .ok (view ((List.finRange count).foldl step s)) := by
  unfold loop
  rw [← List.map_coe_finRange_eq_range, List.foldlM_map]
  induction List.finRange count generalizing s with
  | nil => rfl
  | cons i rest ih =>
    rw [List.foldlM_cons, h s i]
    exact ih (step s i)

/-- A search that faults nowhere. -/
lemma findM?_eq {test : β → Except Fault Bool} (holds : β → Bool) {list : List β}
    (h : ∀ b ∈ list, test b = .ok (holds b)) : list.findM? test = .ok (list.find? holds) := by
  induction list with
  | nil => rfl
  | cons b rest ih =>
    have hrest := ih fun b' hb' => h b' (List.mem_cons_of_mem _ hb')
    rw [List.findM?, h b List.mem_cons_self, List.find?_cons]
    cases holds b with
    | true => rfl
    | false => exact hrest

end Fault

/-- The search among the first indices is a search among all positions. -/
lemma find?_range {count : Nat} (h : count ≤ n) (holds : Nat → Bool) :
    (List.range count).find? holds =
      ((List.finRange n).find? fun j => decide (j.val < count) && holds j.val).map Fin.val := by
  obtain ⟨more, rfl⟩ := Nat.exists_eq_add_of_le h
  have hfirst : (List.range count).find? (fun j => decide (j < count) && holds j) =
      (List.range count).find? holds := by
    apply List.find?_congr
    intro j hj
    simp [List.mem_range.1 hj]
  have hmore : ((List.range more).map (count + ·)).find? (fun j => decide (j < count) && holds j) = none := by
    simp
  calc (List.range count).find? holds
      = (List.range (count + more)).find? fun j => decide (j < count) && holds j := by
        rw [List.range_add, List.find?_append, hfirst, hmore, Option.or_none]
    _ = _ := by
        rw [← List.map_coe_finRange_eq_range, List.find?_map]
        rfl

/-! ## Tables -/

/-- The sequence of the values of a function up to a bound. -/
def upTo (count : Nat) (f : Nat → β) : Array β :=
  Array.ofFn fun i : Fin count => f i

section UpTo

variable {count i : Nat} {f f' : Nat → β}

@[simp] lemma size_upTo : (upTo count f).size = count :=
  Array.size_ofFn

lemma upTo_congr (h : ∀ i < count, f i = f' i) : upTo count f = upTo count f' := by
  unfold upTo
  congr 1
  funext i
  exact h i i.isLt

lemma Fault.entry_upTo (h : i < count) : Fault.entry (upTo count f) i = .ok (f i) := by
  unfold Fault.entry upTo
  rw [Array.getElem?_ofFn, dif_pos h]

lemma Fault.modify_upTo (h : i < count) (g : β → β) :
    Fault.modify g (upTo count f) i = .ok (upTo count fun k => if k = i then g (f k) else f k) := by
  unfold Fault.modify
  rw [dif_pos (by simpa using h)]
  congr 1
  apply Array.ext
  · simp
  · intro k hk _
    simp only [upTo, Array.getElem_set, Array.getElem_ofFn]
    grind

lemma push_upTo : (upTo count f).push (f count) = upTo (count + 1) f := by
  unfold upTo
  rw [Array.ofFn_succ]
  rfl

end UpTo

/-- A table of numbers, row by row, of any lengths. -/
abbrev Grid (α : Type) := Array (Array α)

namespace Grid

/-- The entry in a row and a column. -/
def entry (grid : Grid α) (i j : Nat) : Except Fault α := do
  Fault.entry (← Fault.entry grid i) j

/-- Replaces the entry in a row and a column by its image. -/
def update (f : α → α) (grid : Grid α) (i j : Nat) : Except Fault (Grid α) := do
  let row ← Fault.modify f (← Fault.entry grid i) j
  Fault.modify (fun _ => row) grid i

/-- Replaces the first `width` entries of a row one after the other by their images under functions that may
be read off the table. -/
def sweep (width i : Nat) (image : Grid α → Nat → Except Fault (α → α)) (grid : Grid α) :
    Except Fault (Grid α) :=
  Fault.loop width (fun grid j => do grid.update (← image grid j) i j) grid

/-- The table of a function. -/
def tabulate (r c : Nat) (g : Nat → Nat → α) : Grid α :=
  upTo r fun i => upTo c (g i)

variable {r c i j : Nat} {g g' : Nat → Nat → α}

lemma tabulate_congr (h : ∀ i < r, ∀ j < c, g i j = g' i j) : tabulate r c g = tabulate r c g' :=
  upTo_congr fun i hi => upTo_congr (h i hi)

lemma entry_tabulate (hi : i < r) (hj : j < c) : (tabulate r c g).entry i j = .ok (g i j) := by
  unfold entry tabulate
  rw [Fault.entry_upTo hi]
  exact Fault.entry_upTo hj

lemma update_tabulate (hi : i < r) (hj : j < c) (f : α → α) :
    (tabulate r c g).update f i j =
      .ok (tabulate r c fun x y => if x = i ∧ y = j then f (g x y) else g x y) := by
  unfold update tabulate
  rw [Fault.entry_upTo hi, Fault.ok_bind, Fault.modify_upTo hj, Fault.ok_bind, Fault.modify_upTo hi]
  congr 1
  apply upTo_congr
  intro x _
  by_cases hx : x = i
  · subst hx
    simp
  · simp [hx]

/-- A sweep over a row, where the functions depend on the other rows only. -/
lemma sweep_tabulate {width : Nat} {image : Grid α → Nat → Except Fault (α → α)} {f : Nat → α → α}
    (hi : i < r) (hwidth : width ≤ c)
    (himage : ∀ g', (∀ x ≠ i, ∀ y, g' x y = g x y) → ∀ j < width, image (tabulate r c g') j = .ok (f j)) :
    (tabulate r c g).sweep width i image =
      .ok (tabulate r c fun x y => if x = i ∧ y < width then f y (g x y) else g x y) := by
  have hstart : tabulate r c g = tabulate r c fun x y => if x = i ∧ y < 0 then f y (g x y) else g x y := by
    simp
  unfold sweep
  rw [hstart]
  refine Fault.loop_eq (fun k => tabulate r c fun x y => if x = i ∧ y < k then f y (g x y) else g x y) ?_
  intro k hk
  rw [himage _ (fun x hx y => if_neg fun h => hx h.1) k hk, Fault.ok_bind,
    update_tabulate hi (hk.trans_le hwidth)]
  congr 1
  apply tabulate_congr
  intro x _ y _
  grind

end Grid

end IntegerProgram
