import Mathlib
import IntegerProgram.Proofs.Tableau.Elimination

/-!
# Runs of Bland's rule

The choice of the entering column and of the leaving row, and what a run of pivots keeps:

* `Tableau.trail` lists the tableaux at which a run stands, and `Tableau.endsRun_run` says where and why a
  run ends; an invariant of one pivot holds along the trail (`Tableau.trail_induction`).
* `Tableau.Sharp`: the ratios that the scan for the leaving row compares are equal or differ by more
  than the tie window. Then the scan finds a row of least ratio (`Tableau.SharpAt.leaving_minimal`).
* `Tableau.IsFeasible`: no right-hand side is negative. Sharp pivots keep it
  (`Tableau.IsFeasible.pivot`).
* `Tableau.Prices.le_cost` and `Tableau.Prices.exists_ray_lt`: no reduced cost to improve bounds the cost from
  below, a column that no row limits lets it fall without end.
-/

namespace IntegerProgram.Tableau

section Trail

variable {α : Type} [Scalar α] {m n : Nat}

/-- The tableaux at which a run of at most `budget` pivots stands, from the first to the last. -/
def trail (allowed : Nat) (settings : SimplexSettings α) :
    Nat → Tableau α m n → List (Tableau α m n)
  | 0, t => [t]
  | budget + 1, t =>
    match t.choose allowed settings with
    | .pivot p => t :: trail allowed settings budget (t.pivot p.row p.enters)
    | _ => [t]

variable {allowed : Nat} {settings : SimplexSettings α}

/-- A run starts where its trail starts. -/
lemma mem_trail_self (budget : Nat) (t : Tableau α m n) : t ∈ trail allowed settings budget t := by
  cases budget with
  | zero => exact List.mem_singleton.2 rfl
  | succ budget =>
    unfold trail
    split
    · exact List.mem_cons_self
    · exact List.mem_singleton.2 rfl

/-- What holds at the start of a run and is kept by every pivot of it holds along the trail. -/
lemma trail_induction (P : Tableau α m n → Prop) {budget : Nat} {t : Tableau α m n} (start : P t)
    (step : ∀ u ∈ trail allowed settings budget t, P u →
      ∀ p, u.choose allowed settings = .pivot p → P (u.pivot p.row p.enters)) :
    ∀ u ∈ trail allowed settings budget t, P u := by
  induction budget generalizing t with
  | zero =>
    intro u hu
    rw [List.mem_singleton.1 hu]
    exact start
  | succ budget ih =>
    intro u hu
    unfold trail at hu step
    split at hu
    · rename_i p hp
      rw [hp] at step
      rcases List.mem_cons.1 hu with rfl | hu
      · exact start
      · apply ih _ _ u hu
        · exact step t List.mem_cons_self start p hp
        · intro v hv
          exact step v (List.mem_cons_of_mem _ hv)
    · rw [List.mem_singleton.1 hu]
      exact start

lemma runFrom_optimal {t : Tableau α m n} (h : t.choose allowed settings = .optimal) (budget : Nat)
    (done : List (Pivot m n)) :
    runFrom allowed settings budget t done = ⟨.optimal, t, done.reverse⟩ := by
  unfold runFrom
  rw [h]

lemma runFrom_unbounded {t : Tableau α m n} (h : t.choose allowed settings = .unbounded) (budget : Nat)
    (done : List (Pivot m n)) :
    runFrom allowed settings budget t done = ⟨.unbounded, t, done.reverse⟩ := by
  unfold runFrom
  rw [h]

lemma runFrom_zero {t : Tableau α m n} {p : Pivot m n} (h : t.choose allowed settings = .pivot p)
    (done : List (Pivot m n)) :
    runFrom allowed settings 0 t done = ⟨.outOfPivots, t, done.reverse⟩ := by
  unfold runFrom
  rw [h]

lemma runFrom_succ {t : Tableau α m n} {p : Pivot m n} (h : t.choose allowed settings = .pivot p)
    (budget : Nat) (done : List (Pivot m n)) :
    runFrom allowed settings (budget + 1) t done =
      runFrom allowed settings budget (t.pivot p.row p.enters) (p :: done) := by
  conv_lhs => unfold runFrom
  rw [h]

/-- The end of a run of at most `budget` pivots from `t` that follows `made` earlier pivots: its last
tableau is on the trail and asks for the ending, and a run that is out of pivots has made all of them. -/
structure EndsRun (phase : Phase α m n) (allowed : Nat) (settings : SimplexSettings α)
    (budget : Nat) (t : Tableau α m n) (made : Nat) : Prop where
  mem_trail : phase.tableau ∈ trail allowed settings budget t
  optimal : phase.ending = .optimal → phase.tableau.choose allowed settings = .optimal
  unbounded : phase.ending = .unbounded → phase.tableau.choose allowed settings = .unbounded
  length_le : phase.pivots.length ≤ made + budget
  length_eq : phase.ending = .outOfPivots → phase.pivots.length = made + budget

/-- Where and why a continued run ends. -/
lemma endsRun_runFrom (budget : Nat) (t : Tableau α m n) (done : List (Pivot m n)) :
    EndsRun (runFrom allowed settings budget t done) allowed settings budget t done.length := by
  induction budget generalizing t done with
  | zero =>
    unfold runFrom
    cases hc : t.choose allowed settings with
    | optimal =>
      exact ⟨mem_trail_self 0 t, fun _ => hc, nofun, by simp, nofun⟩
    | unbounded =>
      exact ⟨mem_trail_self 0 t, nofun, fun _ => hc, by simp, nofun⟩
    | pivot p =>
      exact ⟨mem_trail_self 0 t, nofun, nofun, by simp, fun _ => by simp⟩
  | succ budget ih =>
    unfold runFrom
    cases hc : t.choose allowed settings with
    | optimal =>
      exact ⟨mem_trail_self _ t, fun _ => hc, nofun, by simp, nofun⟩
    | unbounded =>
      exact ⟨mem_trail_self _ t, nofun, fun _ => hc, by simp, nofun⟩
    | pivot p =>
      have h := ih (t.pivot p.row p.enters) (p :: done)
      have hlen : (p :: done).length + budget = done.length + (budget + 1) := by
        simp only [List.length_cons]
        omega
      refine ⟨?_, h.optimal, h.unbounded, hlen ▸ h.length_le, hlen ▸ h.length_eq⟩
      simp only [trail, hc]
      exact List.mem_cons_of_mem _ h.mem_trail

/-- Where and why a run ends. -/
lemma endsRun_run (allowed : Nat) (settings : SimplexSettings α) (budget : Nat)
    (t : Tableau α m n) :
    EndsRun (t.run allowed settings budget) allowed settings budget t 0 :=
  endsRun_runFrom budget t []

namespace EndsRun

variable {phase : Phase α m n} {budget : Nat} {t : Tableau α m n}

lemma within_budget (h : EndsRun phase allowed settings budget t 0) : phase.pivots.length ≤ budget :=
  h.length_le.trans_eq (Nat.zero_add budget)

lemma spent_budget (h : EndsRun phase allowed settings budget t 0) (hended : phase.ending = .outOfPivots) :
    phase.pivots.length = budget :=
  (h.length_eq hended).trans (Nat.zero_add budget)

end EndsRun

end Trail

variable {m n : Nat} {allowed : Nat} {settings : SimplexSettings Rat}

/-! ## The choice of a pivot -/

/-- The best row among the first `k`, with its ratio. -/
def scan (t : Tableau Rat m n) (col : Fin n) (tol : Rat) (k : Nat) : Option (Fin m × Rat) :=
  ((List.finRange m).take k).foldl (t.scanRow col tol) none

/-- In the scan for the row that leaves for a column, the ratio of each row and the best one before it
are equal or differ by more than the tie window. -/
def SharpAt (t : Tableau Rat m n) (col : Fin n) (tol : Rat) : Prop :=
  ∀ i : Fin m, tol < t.entry i col → ∀ best ∈ t.scan col tol i,
    t.ratio col i ≠ best.2 → tieWindow < |t.ratio col i - best.2|

/-- The scan for the row that leaves, if there is one, sees no near ties. -/
def Sharp (t : Tableau Rat m n) (allowed : Nat) (settings : SimplexSettings Rat) : Prop :=
  ∀ col ∈ t.entering allowed settings.optimalityTol, t.SharpAt col settings.pivotTol

instance (t : Tableau Rat m n) (col : Fin n) (tol : Rat) : Decidable (t.SharpAt col tol) :=
  inferInstanceAs (Decidable (∀ i : Fin m, _ → ∀ best ∈ t.scan col tol i, _ → _))

instance (t : Tableau Rat m n) (allowed : Nat) (settings : SimplexSettings Rat) :
    Decidable (t.Sharp allowed settings) :=
  inferInstanceAs (Decidable (∀ col ∈ t.entering allowed settings.optimalityTol, _))

/-- No right-hand side is negative. -/
def IsFeasible (t : Tableau Rat m n) : Prop :=
  ∀ i, 0 ≤ t.rhs i

/-- The scan of one more row. -/
lemma scan_succ (t : Tableau Rat m n) (col : Fin n) (tol : Rat) (i : Fin m) :
    t.scan col tol (i + 1) = t.scanRow col tol (t.scan col tol i) i := by
  unfold scan
  rw [List.take_add_one, List.getElem?_eq_getElem (by simp), List.foldl_append]
  simp

/-- The leaving row is the best of all rows. -/
lemma leaving_eq_scan (t : Tableau Rat m n) (col : Fin n) (tol : Rat) :
    t.leaving col tol = (t.scan col tol m).map (·.1) := by
  unfold leaving scan
  rw [List.take_of_length_le (by simp)]

/-- A row among the first `k + 1` is among the first `k` or the last of them. -/
lemma lt_or_eq_last {k : Nat} (hk : k < m) {i : Fin m} (hi : i.val < k + 1) :
    i.val < k ∨ i = ⟨k, hk⟩ := by
  rcases Nat.lt_or_ge i.val k with hlt | hge
  · exact .inl hlt
  · exact .inr (Fin.ext (show i.val = k by omega))

/-- The best row so far has an entry above the tolerance and comes with its ratio; there is none only
if no row has such an entry. -/
lemma scan_cases (t : Tableau Rat m n) (col : Fin n) (tol : Rat) (k : Nat) (hk : k ≤ m) :
    (t.scan col tol k = none ∧ ∀ i : Fin m, i.val < k → t.entry i col ≤ tol) ∨
    ∃ r, t.scan col tol k = some (r, t.ratio col r) ∧ tol < t.entry r col := by
  induction k with
  | zero => exact .inl ⟨rfl, fun i hi => absurd hi (Nat.not_lt_zero _)⟩
  | succ k ih =>
    have hstep : t.scan col tol (k + 1) = t.scanRow col tol (t.scan col tol k) ⟨k, hk⟩ :=
      t.scan_succ col tol ⟨k, hk⟩
    rw [hstep]
    unfold scanRow
    split
    · rename_i hle
      rcases ih (by omega) with ⟨hs, hall⟩ | hbest
      · refine .inl ⟨hs, ?_⟩
        intro i hi
        rcases lt_or_eq_last hk hi with hi | rfl
        · exact hall i hi
        · exact hle
      · exact .inr hbest
    · rename_i hpos
      rw [not_le] at hpos
      rcases ih (by omega) with ⟨hs, -⟩ | ⟨r, hs, hr⟩
      · rw [hs]
        exact .inr ⟨_, rfl, hpos⟩
      · rw [hs]
        simp only
        split
        · exact .inr ⟨_, rfl, hpos⟩
        · exact .inr ⟨r, rfl, hr⟩

/-- No row leaves exactly when no entry of the column is above the tolerance. -/
lemma leaving_eq_none {t : Tableau Rat m n} {col : Fin n} {tol : Rat} :
    t.leaving col tol = none ↔ ∀ i, t.entry i col ≤ tol := by
  rw [leaving_eq_scan, Option.map_eq_none_iff]
  rcases t.scan_cases col tol m (le_refl m) with ⟨hs, hall⟩ | ⟨r, hs, hr⟩
  · exact ⟨fun _ i => hall i i.isLt, fun _ => hs⟩
  · rw [hs]
    exact ⟨nofun, fun h => absurd hr (not_lt.2 (h r))⟩

/-- The leaving row is the best of the whole scan, with its ratio and an entry above the tolerance. -/
lemma scan_of_leaving {t : Tableau Rat m n} {col : Fin n} {tol : Rat} {row : Fin m}
    (h : t.leaving col tol = some row) :
    t.scan col tol m = some (row, t.ratio col row) ∧ tol < t.entry row col := by
  rw [leaving_eq_scan, Option.map_eq_some_iff] at h
  obtain ⟨best, hs, rfl⟩ := h
  rcases t.scan_cases col tol m (le_refl m) with ⟨hn, -⟩ | ⟨r, hr, hpos⟩
  · rw [hs] at hn
    cases hn
  · rw [hs] at hr
    cases hr
    exact ⟨hs, hpos⟩

/-- The leaving row has an entry above the tolerance. -/
lemma lt_entry_of_leaving {t : Tableau Rat m n} {col : Fin n} {tol : Rat} {row : Fin m}
    (h : t.leaving col tol = some row) : tol < t.entry row col :=
  (scan_of_leaving h).2

lemma tieWindow_pos : (0 : Rat) < tieWindow := by
  show (0 : Rat) < 1e-12
  norm_num

/-- A row beats the best one so far only with a ratio that is not larger, and stays behind only with one
that is not smaller. -/
lemma beats_of_sharp {t : Tableau Rat m n} {i r : Fin m} {q best : Rat}
    (h : q ≠ best → tieWindow < |q - best|) :
    (t.beats i q r best = true → q ≤ best) ∧ (t.beats i q r best = false → best ≤ q) := by
  have hw := tieWindow_pos
  unfold beats
  simp only [Bool.or_eq_true, Bool.and_eq_true, decide_eq_true_eq, Bool.or_eq_false_iff,
    decide_eq_false_iff_not]
  by_cases e : q = best
  · subst e
    exact ⟨fun _ => le_refl q, fun _ => le_refl q⟩
  · have hgap := h e
    rw [lt_abs] at hgap
    constructor
    · rintro (hlt | ⟨hle, -⟩)
      · linarith
      · rcases hgap with hgap | hgap
        · linarith
        · linarith
    · rintro ⟨hlt, -⟩
      rcases hgap with hgap | hgap
      · linarith
      · exact absurd (by linarith) hlt

/-- The scan of one more row: a row without an entry above the tolerance is passed over, the first one with
such an entry is taken, and a later one is taken if it beats the best so far. -/
lemma scan_succ_cases (t : Tableau Rat m n) (col : Fin n) (tol : Rat) (i : Fin m) :
    (t.entry i col ≤ tol ∧ t.scan col tol (i + 1) = t.scan col tol i) ∨
    tol < t.entry i col ∧
      ((t.scan col tol (i + 1) = some (i, t.ratio col i) ∧
        ∀ r q, t.scan col tol i = some (r, q) → t.beats i (t.ratio col i) r q = true) ∨
      ∃ r q, t.scan col tol i = some (r, q) ∧ t.scan col tol (i + 1) = some (r, q) ∧
        t.beats i (t.ratio col i) r q = false) := by
  rw [scan_succ]
  unfold scanRow
  split
  · rename_i hle
    exact .inl ⟨hle, rfl⟩
  · rename_i hpos
    refine .inr ⟨not_le.1 hpos, ?_⟩
    cases hs : t.scan col tol i with
    | none => exact .inl ⟨rfl, nofun⟩
    | some best =>
      obtain ⟨r, q⟩ := best
      by_cases hb : t.beats i (t.ratio col i) r q = true
      · refine .inl ⟨if_pos hb, ?_⟩
        intro r' q' e
        cases e
        exact hb
      · exact .inr ⟨r, q, rfl, if_neg hb, Bool.eq_false_iff.2 hb⟩

/-- A scan without near ties keeps a row of least ratio. -/
lemma SharpAt.scan_le {t : Tableau Rat m n} {col : Fin n} {tol : Rat} (h : t.SharpAt col tol)
    (k : Nat) (hk : k ≤ m) : ∀ best ∈ t.scan col tol k, ∀ i : Fin m, i.val < k →
      tol < t.entry i col → best.2 ≤ t.ratio col i := by
  induction k with
  | zero =>
    intro best _ i hi
    exact absurd hi (Nat.not_lt_zero _)
  | succ k ih =>
    have ih := ih (by omega)
    intro best hbest i hi hpos
    rcases t.scan_succ_cases col tol ⟨k, hk⟩ with ⟨hle, e⟩ | ⟨hnew, ⟨e, hbeat⟩ | ⟨r, q, hs, e, hstay⟩⟩
    · -- The new row has no entry to pivot on, and the best row stays.
      rw [e] at hbest
      rcases lt_or_eq_last hk hi with hi | rfl
      · exact ih best hbest i hi hpos
      · exact absurd hpos (not_lt.2 hle)
    · -- The new row is taken: it is not above the best one before it.
      rw [e] at hbest
      cases hbest
      rcases lt_or_eq_last hk hi with hi | rfl
      · rcases t.scan_cases col tol k (by omega) with ⟨-, hall⟩ | ⟨r, hs, -⟩
        · exact absurd hpos (not_lt.2 (hall i hi))
        · have hle := (beats_of_sharp (h ⟨k, hk⟩ hnew _ hs)).1 (hbeat r _ hs)
          exact hle.trans (ih _ hs i hi hpos)
      · exact le_refl _
    · -- The best row stays: the new one is not below it.
      rw [e] at hbest
      cases hbest
      rcases lt_or_eq_last hk hi with hi | rfl
      · exact ih _ hs i hi hpos
      · exact (beats_of_sharp (h ⟨k, hk⟩ hnew _ hs)).2 hstay

/-- At equal ratios the row with the earlier basic column beats the other. -/
lemma beats_self (t : Tableau Rat m n) (i r : Fin m) (q : Rat) :
    t.beats i q r q = decide (t.basis.get i < t.basis.get r) := by
  have hw := tieWindow_pos
  unfold beats
  rw [decide_eq_false (by linarith), decide_eq_true (by linarith : q ≤ q + tieWindow),
    Bool.false_or, Bool.true_and]

/-- Of several rows of least ratio a scan without near ties keeps the one with the first basic column. -/
lemma SharpAt.scan_first {t : Tableau Rat m n} {col : Fin n} {tol : Rat} (h : t.SharpAt col tol)
    (k : Nat) (hk : k ≤ m) : ∀ best ∈ t.scan col tol k, ∀ i : Fin m, i.val < k →
      tol < t.entry i col → best.2 = t.ratio col i → t.basis.get best.1 ≤ t.basis.get i := by
  induction k with
  | zero =>
    intro best _ i hi
    exact absurd hi (Nat.not_lt_zero _)
  | succ k ih =>
    have ih := ih (by omega)
    intro best hbest i hi hpos htie
    rcases t.scan_succ_cases col tol ⟨k, hk⟩ with ⟨hle, e⟩ | ⟨hnew, ⟨e, hbeat⟩ | ⟨r, q, hs, e, hstay⟩⟩
    · rw [e] at hbest
      rcases lt_or_eq_last hk hi with hi | rfl
      · exact ih best hbest i hi hpos htie
      · exact absurd hpos (not_lt.2 hle)
    · rw [e] at hbest
      cases hbest
      rcases lt_or_eq_last hk hi with hi | rfl
      · rcases t.scan_cases col tol k (by omega) with ⟨-, hall⟩ | ⟨r, hs, -⟩
        · exact absurd hpos (not_lt.2 (hall i hi))
        · -- The new row, the best one before it and row `i` are all tied.
          have hbeat := hbeat r _ hs
          have hle := (beats_of_sharp (h ⟨k, hk⟩ hnew _ hs)).1 hbeat
          have heq : t.ratio col ⟨k, hk⟩ = t.ratio col r :=
            le_antisymm hle ((h.scan_le k (by omega) _ hs i hi hpos).trans_eq htie.symm)
          rw [heq, beats_self, decide_eq_true_eq] at hbeat
          exact hbeat.le.trans (ih _ hs i hi hpos (heq.symm.trans htie))
      · exact le_refl _
    · rw [e] at hbest
      cases hbest
      rcases lt_or_eq_last hk hi with hi | rfl
      · exact ih _ hs i hi hpos htie
      · rw [← (show q = t.ratio col ⟨k, hk⟩ from htie), beats_self, decide_eq_false_iff_not] at hstay
        exact not_lt.1 hstay

/-- Without near ties the leaving row is one of least ratio. -/
lemma SharpAt.leaving_minimal {t : Tableau Rat m n} {col : Fin n} {tol : Rat} {row : Fin m}
    (h : t.SharpAt col tol) (hrow : t.leaving col tol = some row) {i : Fin m}
    (hi : tol < t.entry i col) : t.ratio col row ≤ t.ratio col i :=
  h.scan_le m (le_refl m) _ (scan_of_leaving hrow).1 i i.isLt hi

/-- Without near ties the leaving row is, of the rows of least ratio, the one with the first basic
column. -/
lemma SharpAt.leaving_first {t : Tableau Rat m n} {col : Fin n} {tol : Rat} {row : Fin m}
    (h : t.SharpAt col tol) (hrow : t.leaving col tol = some row) {i : Fin m}
    (hi : tol < t.entry i col) (htie : t.ratio col row = t.ratio col i) :
    t.basis.get row ≤ t.basis.get i :=
  h.scan_first m (le_refl m) _ (scan_of_leaving hrow).1 i i.isLt hi htie

/-- No column enters exactly when no allowed column has a reduced cost below the tolerance. -/
lemma entering_eq_none {t : Tableau Rat m n} {tol : Rat} :
    t.entering allowed tol = none ↔ ∀ j : Fin n, j.val < allowed → -tol ≤ t.reduced j := by
  unfold entering
  rw [List.find?_eq_none]
  simp only [List.mem_finRange, Bool.and_eq_true, decide_eq_true_eq, not_and, not_lt, true_implies]

/-- The entering column is allowed and has a reduced cost below the tolerance. -/
lemma entering_spec {t : Tableau Rat m n} {tol : Rat} {col : Fin n}
    (h : t.entering allowed tol = some col) : col.val < allowed ∧ t.reduced col < -tol := by
  have := List.find?_some h
  simpa only [Bool.and_eq_true, decide_eq_true_eq] using this

/-- The columns before the entering one do not improve. -/
lemma le_reduced_of_lt_entering {t : Tableau Rat m n} {tol : Rat} {col j : Fin n}
    (h : t.entering allowed tol = some col) (hj : j < col) : -tol ≤ t.reduced j := by
  obtain ⟨hcol, before, after, hlist, hbefore⟩ := List.find?_eq_some_iff_append.1 h
  have hmem : j ∈ before := by
    have hin := List.mem_finRange j
    have hsorted := List.pairwise_lt_finRange n
    rw [hlist] at hin hsorted
    rcases List.mem_append.1 hin with hin | hin
    · exact hin
    · rcases List.mem_cons.1 hin with rfl | hin
      · exact absurd hj (lt_irrefl _)
      · have := (List.pairwise_cons.1 (List.pairwise_append.1 hsorted).2.1).1 j hin
        exact absurd hj (lt_asymm this)
  have hallowed : j.val < allowed := lt_trans hj (entering_spec h).1
  have hnot := hbefore j hmem
  simpa [hallowed] using hnot

/-- What the choice of a pivot says about the tableau. -/
structure IsPivot (t : Tableau Rat m n) (allowed : Nat) (settings : SimplexSettings Rat)
    (p : Pivot m n) : Prop where
  entering : t.entering allowed settings.optimalityTol = some p.enters
  leaving : t.leaving p.enters settings.pivotTol = some p.row

/-- The three choices and what each says about the tableau. -/
lemma choose_cases (t : Tableau Rat m n) (allowed : Nat) (settings : SimplexSettings Rat) :
    (t.choose allowed settings = .optimal ∧
      ∀ j : Fin n, j.val < allowed → -settings.optimalityTol ≤ t.reduced j) ∨
    (t.choose allowed settings = .unbounded ∧ ∃ col : Fin n, col.val < allowed ∧
      t.reduced col < -settings.optimalityTol ∧ ∀ i, t.entry i col ≤ settings.pivotTol) ∨
    (∃ p, t.choose allowed settings = .pivot p ∧ t.IsPivot allowed settings p) := by
  unfold choose
  cases he : t.entering allowed settings.optimalityTol with
  | none => exact .inl ⟨rfl, entering_eq_none.1 he⟩
  | some col =>
    obtain ⟨hcol, hred⟩ := entering_spec he
    simp only
    cases hl : t.leaving col settings.pivotTol with
    | none => exact .inr (.inl ⟨rfl, col, hcol, hred, leaving_eq_none.1 hl⟩)
    | some row => exact .inr (.inr ⟨_, rfl, he, hl⟩)

/-- At an optimal choice no allowed column has a reduced cost below the tolerance. -/
lemma reduced_of_optimal {t : Tableau Rat m n} (h : t.choose allowed settings = .optimal) (j : Fin n)
    (hj : j.val < allowed) : -settings.optimalityTol ≤ t.reduced j := by
  rcases t.choose_cases allowed settings with ⟨-, hr⟩ | ⟨hc, -⟩ | ⟨p, hc, -⟩
  · exact hr j hj
  · rw [h] at hc
    cases hc
  · rw [h] at hc
    cases hc

/-- At an unbounded choice some allowed column improves and is limited by no row. -/
lemma column_of_unbounded {t : Tableau Rat m n} (h : t.choose allowed settings = .unbounded) :
    ∃ col : Fin n, col.val < allowed ∧ t.reduced col < -settings.optimalityTol ∧
      ∀ i, t.entry i col ≤ settings.pivotTol := by
  rcases t.choose_cases allowed settings with ⟨hc, -⟩ | ⟨-, hr⟩ | ⟨p, hc, -⟩
  · rw [h] at hc
    cases hc
  · exact hr
  · rw [h] at hc
    cases hc

/-- A chosen pivot is the pair of the entering column and the leaving row. -/
lemma isPivot_of_choose {t : Tableau Rat m n} {p : Pivot m n}
    (h : t.choose allowed settings = .pivot p) : t.IsPivot allowed settings p := by
  rcases t.choose_cases allowed settings with ⟨hc, -⟩ | ⟨hc, -⟩ | ⟨q, hc, hq⟩
  · rw [h] at hc
    cases hc
  · rw [h] at hc
    cases hc
  · rw [h] at hc
    cases hc
    exact hq

/-- The pivot element of a chosen pivot is not zero. -/
lemma IsPivot.entry_ne_zero {t : Tableau Rat m n} {p : Pivot m n}
    (h : t.IsPivot allowed settings p) (htol : 0 ≤ settings.pivotTol) :
    t.entry p.row p.enters ≠ 0 :=
  (htol.trans_lt (lt_entry_of_leaving h.leaving)).ne'

/-! ## What pivots keep -/

/-- In a feasible tableau a ratio is the right-hand side over the entry. -/
lemma IsFeasible.ratio_eq {t : Tableau Rat m n} (h : t.IsFeasible) (col : Fin n) (i : Fin m) :
    t.ratio col i = t.rhs i / t.entry i col := by
  unfold ratio
  rw [max_eq_left (h i)]

/-- A pivot on a positive element in a row of least ratio keeps right-hand sides from becoming
negative. -/
lemma IsFeasible.pivot {t : Tableau Rat m n} {row : Fin m} {col : Fin n} (h : t.IsFeasible)
    (hpos : 0 < t.entry row col)
    (hmin : ∀ i, 0 < t.entry i col → t.ratio col row ≤ t.ratio col i) :
    (t.pivot row col).IsFeasible := by
  intro k
  rw [rhs_pivot hpos.ne']
  split
  · exact div_nonneg (h row) hpos.le
  · rcases lt_or_ge 0 (t.entry k col) with hk | hk
    · have hle := hmin k hk
      rw [h.ratio_eq, h.ratio_eq, le_div_iff₀ hk] at hle
      linarith
    · have : 0 ≤ t.rhs row / t.entry row col := div_nonneg (h row) hpos.le
      nlinarith [h k]

/-- A chosen pivot without near ties keeps right-hand sides from becoming negative. -/
lemma IsFeasible.pivot_of_sharp {t : Tableau Rat m n} {p : Pivot m n} (h : t.IsFeasible)
    (htol : settings.pivotTol = 0) (hsharp : t.Sharp allowed settings)
    (hp : t.IsPivot allowed settings p) : (t.pivot p.row p.enters).IsFeasible := by
  have hs := hsharp p.enters hp.entering
  have hpos := lt_entry_of_leaving hp.leaving
  rw [htol] at hs hpos
  apply h.pivot hpos
  intro i hi
  exact hs.leaving_minimal (htol ▸ hp.leaving) hi

/-! ## Bounds on the cost -/

/-- A reduced cost that is not below `-tol` contributes at least `-tol` for each unit of its column. -/
lemma neg_mul_le {tol reduced w : Rat} (hred : -tol ≤ reduced) (hw : 0 ≤ w) :
    -(tol * w) ≤ reduced * w := by
  rw [← neg_mul]
  exact mul_le_mul_of_nonneg_right hred hw

/-- Reduced costs bound the cost from below by the objective value, up to `tol` for each unit of the
point. -/
lemma Prices.le_cost_add {t : Tableau Rat m n} {cost : Vector Rat n} (h : t.Prices cost)
    {w : Fin n → Rat} (tol : Rat) (hw : t.Satisfies w)
    (hprod : ∀ j, -(tol * w j) ≤ t.reduced j * w j) :
    t.objectiveValue ≤ ∑ j, cost.get j * w j + tol * ∑ j, w j := by
  have hsum : ∑ j, -(tol * w j) ≤ ∑ j, t.reduced j * w j :=
    Finset.sum_le_sum fun j _ => hprod j
  rw [Finset.sum_neg_distrib, ← Finset.mul_sum] at hsum
  rw [h.value w hw]
  linarith

/-- Reduced costs that are not negative on the columns in use bound the cost from below by the objective
value. -/
lemma Prices.le_cost {t : Tableau Rat m n} {cost : Vector Rat n} (h : t.Prices cost)
    {w : Fin n → Rat} (hw : t.Satisfies w) (hprod : ∀ j, 0 ≤ t.reduced j * w j) :
    t.objectiveValue ≤ ∑ j, cost.get j * w j := by
  simpa using h.le_cost_add 0 hw (by simpa using hprod)

/-- Along a column that no row limits, a feasible tableau has a ray without negative values. -/
lemma IsFeasible.ray_nonneg {t : Tableau Rat m n} (h : t.IsFeasible) {col : Fin n}
    (hcol : ∀ i, t.entry i col ≤ 0) {step : Rat} (hstep : 0 ≤ step) (j : Fin n) :
    0 ≤ t.ray col step j := by
  have hbasic : 0 ≤ t.spread (fun i => t.rhs i - step * t.entry i col) j := by
    apply spread_nonneg
    intro i
    have := mul_nonneg hstep (neg_nonneg.2 (hcol i))
    have := h i
    linarith
  unfold ray
  split
  · linarith
  · linarith

/-- Along a column with a negative reduced cost, the cost falls below every number. -/
lemma Prices.exists_ray_lt {t : Tableau Rat m n} {cost : Vector Rat n} (hc : t.IsCanonical)
    (h : t.Prices cost) {col : Fin n} (hred : t.reduced col < 0) (bound : Rat) :
    ∃ step, 0 ≤ step ∧ ∑ j, cost.get j * t.ray col step j < bound := by
  -- The step that reaches the bound, and one more.
  refine ⟨max 0 ((bound - t.objectiveValue) / t.reduced col) + 1, by positivity, ?_⟩
  rw [h.cost_ray hc]
  have hle := le_max_right 0 ((bound - t.objectiveValue) / t.reduced col)
  rw [div_le_iff_of_neg hred] at hle
  linarith

end IntegerProgram.Tableau
