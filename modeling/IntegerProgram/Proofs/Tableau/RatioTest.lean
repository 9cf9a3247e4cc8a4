import Mathlib
import IntegerProgram.Proofs.Tableau.Bland

/-!
# The ratio test

How far the ratio of the leaving row can lie above the least one. The scan compares each row with the best
row so far, and a row that wins a tie brings its own ratio along, so the tie windows of successive winners
add up:

* `Tableau.scan_le_add`: after a scan of some rows the best ratio exceeds each of theirs by at most one tie
  window for every row that limits the column but one.
* `Tableau.staircase`: tableaux in which every further row carries the best ratio up by a whole window.
* `Tableau.leaving_nearLeast`: what the leaving row is, and that no smaller bound on its ratio holds.
-/

namespace IntegerProgram.Tableau

variable {m n : Nat} {t : Tableau Rat m n} {col : Fin n} {tol : Rat}

/-! ## Scans -/

/-- The rows that limit a column: those with an entry above the tolerance. -/
def limiting (t : Tableau Rat m n) (col : Fin n) (tol : Rat) : Finset (Fin m) :=
  {i | tol < t.entry i col}

/-- The rows that limit a column among the first `k`. -/
def limitingBefore (t : Tableau Rat m n) (col : Fin n) (tol : Rat) (k : Nat) : Finset (Fin m) :=
  {i | tol < t.entry i col ∧ i.val < k}

lemma mem_limitingBefore {k : Nat} {i : Fin m} :
    i ∈ t.limitingBefore col tol k ↔ tol < t.entry i col ∧ i.val < k := by
  simp [limitingBefore]

lemma limitingBefore_all : t.limitingBefore col tol m = t.limiting col tol := by
  simp [limitingBefore, limiting]

/-- A row that does not limit the column is not counted. -/
lemma limitingBefore_succ_of_le {i : Fin m} (h : t.entry i col ≤ tol) :
    t.limitingBefore col tol (i + 1) = t.limitingBefore col tol i := by
  ext k
  rw [mem_limitingBefore, mem_limitingBefore]
  refine and_congr_right fun hk => ?_
  have hne : k ≠ i := by
    rintro rfl
    exact absurd hk (not_lt.2 h)
  have hval := Fin.val_ne_of_ne hne
  omega

/-- A row that limits the column is one more. -/
lemma card_limitingBefore_succ {i : Fin m} (h : tol < t.entry i col) :
    (t.limitingBefore col tol (i + 1)).card = (t.limitingBefore col tol i).card + 1 := by
  have hnew : i ∉ t.limitingBefore col tol i := by
    rw [mem_limitingBefore]
    rintro ⟨-, hlt⟩
    exact lt_irrefl _ hlt
  rw [← Finset.card_insert_of_notMem hnew]
  congr 1
  ext k
  rw [Finset.mem_insert, mem_limitingBefore, mem_limitingBefore]
  constructor
  · rintro ⟨hk, hlt⟩
    rcases lt_or_eq_last i.isLt hlt with hlt | e
    · exact .inr ⟨hk, hlt⟩
    · exact .inl e
  · rintro (rfl | ⟨hk, hlt⟩)
    · exact ⟨h, Nat.lt_succ_self _⟩
    · exact ⟨hk, Nat.lt_succ_of_lt hlt⟩

/-- The best row so far is one of the rows that limit the column. -/
lemma mem_limitingBefore_of_scan (k : Nat) (hk : k ≤ m) :
    ∀ best ∈ t.scan col tol k, best.1 ∈ t.limitingBefore col tol k := by
  induction k with
  | zero => exact nofun
  | succ k ih =>
    have ih := ih (by omega)
    intro best hbest
    rcases t.scan_succ_cases col tol ⟨k, hk⟩ with ⟨hle, e⟩ | ⟨hnew, ⟨e, -⟩ | ⟨r, q, hs, e, -⟩⟩
    · rw [e] at hbest
      rw [limitingBefore_succ_of_le (i := ⟨k, hk⟩) hle]
      exact ih best hbest
    · rw [e] at hbest
      cases hbest
      exact mem_limitingBefore.2 ⟨hnew, Nat.lt_succ_self k⟩
    · rw [e] at hbest
      cases hbest
      obtain ⟨hr, hlt⟩ := mem_limitingBefore.1 (ih _ hs)
      exact mem_limitingBefore.2 ⟨hr, Nat.lt_succ_of_lt hlt⟩

/-- A row that beats the best one so far is at most a window above it, and one that does not is at most a
window below. -/
lemma beats_within {i r : Fin m} {q best : Rat} :
    (t.beats i q r best = true → q ≤ best + tieWindow) ∧
    (t.beats i q r best = false → best ≤ q + tieWindow) := by
  have hw := tieWindow_pos
  unfold beats
  simp only [Bool.or_eq_true, Bool.and_eq_true, decide_eq_true_eq, Bool.or_eq_false_iff,
    decide_eq_false_iff_not]
  constructor
  · rintro (hlt | ⟨hle, -⟩)
    · linarith
    · exact hle
  · rintro ⟨hnot, -⟩
    linarith

/-- The best ratio so far exceeds no ratio of the rows scanned by more than a window for each limiting row
but one. -/
lemma scan_le_add (k : Nat) (hk : k ≤ m) : ∀ best ∈ t.scan col tol k,
    ∀ i ∈ t.limitingBefore col tol k,
      best.2 ≤ t.ratio col i + ((t.limitingBefore col tol k).card - 1) * tieWindow := by
  have hw := tieWindow_pos
  induction k with
  | zero => exact nofun
  | succ k ih =>
    have ih := ih (by omega)
    intro best hbest i hi
    rcases t.scan_succ_cases col tol ⟨k, hk⟩ with ⟨hle, e⟩ | ⟨hnew, hcases⟩
    · rw [e] at hbest
      rw [limitingBefore_succ_of_le (i := ⟨k, hk⟩) hle] at hi ⊢
      exact ih best hbest i hi
    · have hcard : ((t.limitingBefore col tol (k + 1)).card : Rat)
          = (t.limitingBefore col tol k).card + 1 := by
        exact_mod_cast card_limitingBefore_succ (i := ⟨k, hk⟩) hnew
      rw [hcard, add_sub_cancel_right]
      obtain ⟨hpos, hlt⟩ := mem_limitingBefore.1 hi
      rcases hcases with ⟨e, hbeat⟩ | ⟨r, q, hs, e, hstay⟩
      · rw [e] at hbest
        cases hbest
        rcases lt_or_eq_last hk hlt with hlt | rfl
        · have hi := mem_limitingBefore.2 ⟨hpos, hlt⟩
          rcases t.scan_cases col tol k (by omega) with ⟨-, hall⟩ | ⟨r, hs, -⟩
          · exact absurd hpos (not_lt.2 (hall i hlt))
          · -- The winner of a tie adds its window to what the best row before it was off.
            have hwin := beats_within.1 (hbeat r _ hs)
            have hoff := ih _ hs i hi
            simp only at hoff ⊢
            linarith
        · have : (0 : Rat) ≤ (t.limitingBefore col tol k).card * tieWindow := by positivity
          linarith
      · rw [e] at hbest
        cases hbest
        rcases lt_or_eq_last hk hlt with hlt | rfl
        · have hoff := ih _ hs i (mem_limitingBefore.2 ⟨hpos, hlt⟩)
          simp only at hoff ⊢
          linarith
        · -- A row passed over is below the best one by at most a window, and is not the first.
          have hlose := beats_within.2 hstay
          have hone : 1 ≤ (t.limitingBefore col tol k).card :=
            Finset.card_pos.2 ⟨_, mem_limitingBefore_of_scan k (by omega) _ hs⟩
          have hone : (1 : Rat) ≤ (t.limitingBefore col tol k).card := by exact_mod_cast hone
          have := mul_le_mul_of_nonneg_right hone hw.le
          simp only at hlose ⊢
          linarith

/-- The ratio of the leaving row exceeds no ratio by more than a window for each limiting row but one. -/
lemma ratio_leaving_le {row : Fin m} (h : t.leaving col tol = some row) {i : Fin m}
    (hi : tol < t.entry i col) :
    t.ratio col row ≤ t.ratio col i + ((t.limiting col tol).card - 1) * tieWindow := by
  have hle := scan_le_add m (le_refl m) _ (scan_of_leaving h).1 i (mem_limitingBefore.2 ⟨hi, i.isLt⟩)
  rw [limitingBefore_all] at hle
  exact hle

/-! ## Staircases -/

/-- The tableau of `k + 1` rows that limit the last column, each with a ratio one tie window above the row
before it and with an earlier basic column. -/
def staircase (k : Nat) (height : Rat) : Tableau Rat (k + 1) (k + 2) where
  rows := Vector.ofFn fun i =>
    { coeffs := Vector.ofFn fun j =>
        if j = Fin.last (k + 1) then height else if j = i.rev.castSucc then 1 else 0
      rhs := i.val * tieWindow * height }
  objective := ⟨Vector.ofFn fun j => if j = Fin.last (k + 1) then -1 else 0, 0⟩
  basis := Vector.ofFn fun i => i.rev.castSucc

section Staircase

variable {k : Nat} {height : Rat}

@[simp] lemma entry_staircase (i : Fin (k + 1)) (j : Fin (k + 2)) :
    (staircase k height).entry i j
      = if j = Fin.last (k + 1) then height else if j = i.rev.castSucc then 1 else 0 := by
  simp [entry, staircase]

@[simp] lemma rhs_staircase (i : Fin (k + 1)) :
    (staircase k height).rhs i = i.val * tieWindow * height := by
  simp [rhs, staircase]

@[simp] lemma basis_staircase (i : Fin (k + 1)) :
    (staircase k height).basis.get i = i.rev.castSucc := by
  simp [staircase]

lemma isCanonical_staircase : (staircase k height).IsCanonical := by
  intro i r
  rw [basis_staircase, entry_staircase, if_neg (Fin.castSucc_ne_last _)]
  simp only [Fin.castSucc_inj, Fin.rev_inj, eq_comm]

lemma isFeasible_staircase (h : 0 < height) : (staircase k height).IsFeasible := by
  intro i
  have hw := tieWindow_pos
  rw [rhs_staircase]
  positivity

lemma ratio_staircase (h : 0 < height) (i : Fin (k + 1)) :
    (staircase k height).ratio (Fin.last (k + 1)) i = i.val * tieWindow := by
  rw [ratio, max_eq_left (isFeasible_staircase h i), rhs_staircase, entry_staircase, if_pos rfl,
    mul_div_assoc, div_self h.ne', mul_one]

/-- Every step of a staircase ties with the one before it and wins by its basic column. -/
lemma beats_staircase {i : Nat} (hi : i + 1 < k + 1) :
    (staircase k height).beats ⟨i + 1, hi⟩ ((i + 1 : Nat) * tieWindow) ⟨i, by omega⟩ (i * tieWindow)
      = true := by
  have hratio : ((i + 1 : Nat) * tieWindow : Rat) ≤ i * tieWindow + tieWindow := by
    push_cast
    linarith
  have hbasis : (⟨i + 1, hi⟩ : Fin (k + 1)).rev < (⟨i, by omega⟩ : Fin (k + 1)).rev := by
    rw [Fin.rev_lt_rev, Fin.mk_lt_mk]
    exact Nat.lt_succ_self i
  unfold beats
  simp only [basis_staircase, Fin.castSucc_lt_castSucc_iff, hratio, hbasis, decide_true,
    Bool.and_self, Bool.or_true]

/-- The scan of a staircase goes up with it. -/
lemma scan_staircase (h : 0 < height) (htol : tol < height) (i : Nat) (hi : i < k + 1) :
    (staircase k height).scan (Fin.last (k + 1)) tol (i + 1)
      = some (⟨i, hi⟩, (i * tieWindow : Rat)) := by
  induction i with
  | zero =>
    rcases (staircase k height).scan_succ_cases (Fin.last (k + 1)) tol ⟨0, hi⟩ with
      ⟨hle, -⟩ | ⟨-, ⟨e, -⟩ | ⟨r, q, hs, -⟩⟩
    · rw [entry_staircase, if_pos rfl] at hle
      exact absurd htol (not_lt.2 hle)
    · rw [ratio_staircase h] at e
      exact e
    · cases hs
  | succ i ih =>
    rcases (staircase k height).scan_succ_cases (Fin.last (k + 1)) tol ⟨i + 1, hi⟩ with
      ⟨hle, -⟩ | ⟨-, ⟨e, -⟩ | ⟨r, q, hs, -, hstay⟩⟩
    · rw [entry_staircase, if_pos rfl] at hle
      exact absurd htol (not_lt.2 hle)
    · rw [ratio_staircase h] at e
      exact e
    · rw [ih (by omega)] at hs
      cases hs
      rw [ratio_staircase h, beats_staircase hi] at hstay
      cases hstay

lemma leaving_staircase (h : 0 < height) (htol : tol < height) :
    (staircase k height).leaving (Fin.last (k + 1)) tol = some (Fin.last k) := by
  rw [leaving_eq_scan, scan_staircase h htol k (Nat.lt_succ_self k)]
  rfl

lemma card_limiting_staircase (htol : tol < height) :
    ((staircase k height).limiting (Fin.last (k + 1)) tol).card = k + 1 := by
  have hall : (staircase k height).limiting (Fin.last (k + 1)) tol = Finset.univ := by
    ext i
    simp [limiting, htol]
  rw [hall, Finset.card_univ, Fintype.card_fin]

end Staircase

/-! ## The leaving row -/

/-- No row leaves exactly when none limits the column, and otherwise a limiting row leaves whose ratio
exceeds the least one by at most a tie window for each limiting row but one. No smaller bound holds: for
every number of limiting rows there is a feasible tableau whose leaving row is that far off. -/
theorem leaving_nearLeast (tol : Rat) :
    (∀ (m n : Nat) (t : Tableau Rat m n) (col : Fin n),
      (t.leaving col tol = none ↔ ∀ i, t.entry i col ≤ tol) ∧
      ∀ row ∈ t.leaving col tol, tol < t.entry row col ∧ ∀ i, tol < t.entry i col →
        t.ratio col row ≤ t.ratio col i + ((t.limiting col tol).card - 1) * tieWindow) ∧
    ∀ k : Nat, ∃ (t : Tableau Rat (k + 1) (k + 2)) (col : Fin (k + 2)) (row least : Fin (k + 1)),
      t.IsCanonical ∧ t.IsFeasible ∧ (t.limiting col tol).card = k + 1 ∧
      t.leaving col tol = some row ∧ tol < t.entry least col ∧
      t.ratio col row = t.ratio col least + k * tieWindow := by
  constructor
  · intro m n t col
    refine ⟨leaving_eq_none, ?_⟩
    intro row hrow
    exact ⟨lt_entry_of_leaving hrow, fun i hi => ratio_leaving_le hrow hi⟩
  · intro k
    have hpos : 0 < max tol 0 + 1 := by positivity
    have habove : tol < max tol 0 + 1 := (le_max_left tol 0).trans_lt (lt_add_one _)
    refine ⟨staircase k (max tol 0 + 1), Fin.last (k + 1), Fin.last k, 0, isCanonical_staircase,
      isFeasible_staircase hpos, card_limiting_staircase habove, leaving_staircase hpos habove, ?_, ?_⟩
    · rw [entry_staircase, if_pos rfl]
      exact habove
    · rw [ratio_staircase hpos, ratio_staircase hpos]
      simp

/-- Three equal entries in the last column, with right-hand sides zero, one and two. -/
def steep : Tableau Rat 3 4 :=
  staircase 2 1000000000000

/-- The last of three rows leaves, as far above the least ratio as three rows allow. -/
theorem leaving_nearLeast_steep : steep.leaving 3 0 = some 2 ∧ 0 < steep.entry 0 3 ∧
    steep.ratio 3 2 ≤ steep.ratio 3 0 + ((steep.limiting 3 0).card - 1) * tieWindow := by
  have hrow : steep.leaving 3 0 = some 2 := by decide +kernel
  have hleast : 0 < steep.entry 0 3 := by decide +kernel
  exact ⟨hrow, hleast, (((leaving_nearLeast 0).1 3 4 steep 3).2 2 hrow).2 0 hleast⟩

/-- The leaving row can lie above the least ratio by more than a tie window: its ratio is two windows, and
another row that limits the column has ratio zero. -/
theorem leaving_drifts : steep.IsCanonical ∧ steep.IsFeasible ∧
    (List.finRange 3).map steep.rhs = [0, 1, 2] ∧ steep.leaving 3 0 = some 2 ∧
    0 < steep.entry 0 3 ∧ steep.ratio 3 0 + tieWindow < steep.ratio 3 2 :=
  ⟨isCanonical_staircase, isFeasible_staircase (by decide +kernel), by decide +kernel,
    by decide +kernel, by decide +kernel, by decide +kernel⟩

end IntegerProgram.Tableau
