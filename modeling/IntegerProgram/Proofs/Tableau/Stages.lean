import Mathlib
import IntegerProgram.Proofs.Tableau.Bland

/-!
# Stages of the simplex method

What holds at every tableau between the standard form and the answer, over exact scalars:

* `Tableau.Represents`: the tableau is canonical, has the same points as the system it came from, and
  prices the installed cost. It holds along every run, whatever the tolerances are
  (`Tableau.Represents.of_mem_trail`).
* Expelling columns from the basis keeps the system (`Tableau.Expelled`), and what is left of them sits
  in rows that have no other entries (`Tableau.IsCleared`); later runs leave these rows alone
  (`Tableau.IsCleared.pivot`).
-/

namespace IntegerProgram.Tableau

variable {m n : Nat} {allowed real : Nat} {settings : SimplexSettings Rat}

/-- A canonical tableau with the points of a system and with a priced cost. -/
structure Represents (t system : Tableau Rat m n) (cost : Vector Rat n) : Prop where
  canonical : t.IsCanonical
  satisfies : ∀ w, t.Satisfies w ↔ system.Satisfies w
  prices : t.Prices cost

/-- A pivot on an entry that is not zero keeps what a tableau represents. -/
lemma Represents.pivot {t system : Tableau Rat m n} {cost : Vector Rat n} {row : Fin m} {col : Fin n}
    (h : t.Represents system cost) (hp : t.entry row col ≠ 0) :
    (t.pivot row col).Represents system cost where
  canonical := h.canonical.pivot hp
  satisfies := by
    intro w
    rw [satisfies_pivot hp, h.satisfies]
  prices := h.prices.pivot hp h.canonical

/-- A run keeps what its tableaux represent. -/
lemma Represents.of_mem_trail {t system : Tableau Rat m n} {cost : Vector Rat n} {budget : Nat}
    (h : t.Represents system cost) (htol : 0 ≤ settings.pivotTol) :
    ∀ u ∈ trail allowed settings budget t, u.Represents system cost := by
  apply trail_induction (fun u => u.Represents system cost) h
  intro u _ hu p hp
  exact hu.pivot ((isPivot_of_choose hp).entry_ne_zero htol)

/-- A run without near ties keeps right-hand sides from becoming negative. -/
lemma IsFeasible.of_mem_trail {t : Tableau Rat m n} {budget : Nat} (h : t.IsFeasible)
    (htol : settings.pivotTol = 0)
    (hsharp : ∀ u ∈ trail allowed settings budget t, u.Sharp allowed settings) :
    ∀ u ∈ trail allowed settings budget t, u.IsFeasible := by
  apply trail_induction IsFeasible h
  intro u hmem hu p hp
  exact hu.pivot_of_sharp htol (hsharp u hmem) (isPivot_of_choose hp)

/-! ## Expelling columns from the basis -/

/-- One step of the expulsion: a row with a real basic column is passed over, a row with a real entry of
a size above the tolerance is pivoted on it, and any other row is noted as redundant. -/
lemma expelRow_cases (real : Nat) (tol : Rat) (t : Tableau Rat m n) (redundant : List (Fin m)) (row : Fin m) :
    (expelRow real tol (t, redundant) row = (t, redundant) ∧ (t.basis.get row).val < real) ∨
    (∃ col : Fin n, expelRow real tol (t, redundant) row = (t.pivot row col, redundant) ∧
      real ≤ (t.basis.get row).val ∧ col.val < real ∧ tol < |t.entry row col|) ∨
    (expelRow real tol (t, redundant) row = (t, redundant ++ [row]) ∧
      ∀ j : Fin n, j.val < real → |t.entry row j| ≤ tol) := by
  unfold expelRow
  simp only
  split
  · rename_i hlt
    exact .inl ⟨rfl, hlt⟩
  · rename_i hge
    rw [not_lt] at hge
    split
    · rename_i col hfind
      have hcol := List.find?_some hfind
      simp only [Rational.abs_eq, Bool.and_eq_true, decide_eq_true_eq] at hcol
      exact .inr (.inl ⟨col, rfl, hge, hcol⟩)
    · rename_i hfind
      rw [List.find?_eq_none] at hfind
      refine .inr (.inr ⟨rfl, ?_⟩)
      intro j hj
      have := hfind j (List.mem_finRange j)
      simpa [hj] using this

/-- An expulsion by entries above a tolerance keeps a tableau canonical and keeps its points, whatever the
right-hand sides are. -/
lemma IsCanonical.expel {t : Tableau Rat m n} (h : t.IsCanonical) (real : Nat) {tol : Rat}
    (htol : 0 ≤ tol) :
    (t.expel real tol).1.IsCanonical ∧ ∀ w, (t.expel real tol).1.Satisfies w ↔ t.Satisfies w := by
  unfold Tableau.expel
  -- the tableau of the fold after some rows, whatever rows are still to come
  suffices hfold : ∀ (rows : List (Fin m)) (state : Tableau Rat m n × List (Fin m)),
      (state.1.IsCanonical ∧ ∀ w, state.1.Satisfies w ↔ t.Satisfies w) →
      (rows.foldl (expelRow real tol) state).1.IsCanonical ∧
        ∀ w, (rows.foldl (expelRow real tol) state).1.Satisfies w ↔ t.Satisfies w from
    hfold (List.finRange m) (t, []) ⟨h, fun _ => Iff.rfl⟩
  intro rows
  induction rows with
  | nil => exact fun _ hstate => hstate
  | cons row rest ih =>
    rintro ⟨u, redundant⟩ ⟨hcanonical, hsatisfies⟩
    apply ih
    rcases expelRow_cases real tol u redundant row with ⟨e, -⟩ | ⟨col, e, -, -, hpos⟩ | ⟨e, -⟩
    · rw [e]
      exact ⟨hcanonical, hsatisfies⟩
    · have hp : u.entry row col ≠ 0 := abs_pos.1 (htol.trans_lt hpos)
      rw [e]
      refine ⟨hcanonical.pivot hp, fun w => ?_⟩
      rw [satisfies_pivot hp, hsatisfies]
    · rw [e]
      exact ⟨hcanonical, hsatisfies⟩

/-- Rows whose basic column is not among the first `real` ones have right-hand side zero. -/
def IsZeroBeyond (t : Tableau Rat m n) (real : Nat) : Prop :=
  ∀ i, real ≤ (t.basis.get i).val → t.rhs i = 0

/-- Rows whose basic column is not among the first `real` ones have right-hand side zero and no entry
in those columns. -/
def IsCleared (t : Tableau Rat m n) (real : Nat) : Prop :=
  ∀ i, real ≤ (t.basis.get i).val → t.rhs i = 0 ∧ ∀ j : Fin n, j.val < real → t.entry i j = 0

/-- The state of an expulsion that started at `t` and has gone through the rows `done`: the system is
the same, no right-hand side has changed, a real basic column has stayed real, and rows left with a
column beyond have no real entries. -/
structure Expelled (t : Tableau Rat m n) (real : Nat) (done : List (Fin m)) (u : Tableau Rat m n) :
    Prop where
  canonical : u.IsCanonical
  satisfies : ∀ w, u.Satisfies w ↔ t.Satisfies w
  rhs : ∀ i, u.rhs i = t.rhs i
  basis : ∀ i, real ≤ (u.basis.get i).val → u.basis.get i = t.basis.get i
  cleared : ∀ i ∈ done, real ≤ (u.basis.get i).val → ∀ j : Fin n, j.val < real → u.entry i j = 0

/-- A pivot of the expulsion on a row with right-hand side zero changes no right-hand side and revives no
row that has no real entries. -/
lemma Expelled.pivot {t u : Tableau Rat m n} {done : List (Fin m)} {row : Fin m} {col : Fin n}
    (h : t.Expelled real done u) (hzero : t.IsZeroBeyond real)
    (hrow : real ≤ (u.basis.get row).val) (hcol : col.val < real) (hp : u.entry row col ≠ 0) :
    t.Expelled real (done ++ [row]) (u.pivot row col) := by
  have hrhs : u.rhs row = 0 := by
    rw [h.rhs]
    apply hzero
    rw [← h.basis row hrow]
    exact hrow
  refine ⟨h.canonical.pivot hp, ?_, ?_, ?_, ?_⟩
  · intro w
    rw [satisfies_pivot hp, h.satisfies]
  · intro k
    rw [rhs_pivot_of_eq_zero hp hrhs, h.rhs k]
  · intro i hi
    rw [basis_pivot] at hi ⊢
    split at hi
    · omega
    · rename_i hne
      rw [if_neg hne]
      exact h.basis i hi
  · intro i hdone hi j hj
    rw [basis_pivot] at hi
    split at hi
    · omega
    · rename_i hne
      have hmem : i ∈ done := by
        rcases List.mem_append.1 hdone with hd | hd
        · exact hd
        · exact absurd (List.mem_singleton.1 hd).symm hne
      have hclear := h.cleared i hmem hi
      rw [entry_pivot hp, if_neg fun e => hne e.symm, hclear col hcol, zero_mul, sub_zero]
      exact hclear j hj

/-- One step of the expulsion. -/
lemma Expelled.expelRow {t u : Tableau Rat m n} {done : List (Fin m)} {redundant : List (Fin m)}
    (h : t.Expelled real done u) (hzero : t.IsZeroBeyond real) (row : Fin m) :
    t.Expelled real (done ++ [row]) (expelRow real 0 (u, redundant) row).1 := by
  have hkeep : (real ≤ (u.basis.get row).val → ∀ j : Fin n, j.val < real → u.entry row j = 0) →
      t.Expelled real (done ++ [row]) u := by
    intro hrow
    refine ⟨h.canonical, h.satisfies, h.rhs, h.basis, ?_⟩
    intro i hi
    rcases List.mem_append.1 hi with hi | hi
    · exact h.cleared i hi
    · rw [List.mem_singleton.1 hi]
      exact hrow
  rcases expelRow_cases real 0 u redundant row with
    ⟨e, hlt⟩ | ⟨col, e, hge, hcol, hpos⟩ | ⟨e, hall⟩
  · rw [e]
    apply hkeep
    intro hge
    omega
  · rw [e]
    exact h.pivot hzero hge hcol (abs_pos.1 hpos)
  · rw [e]
    apply hkeep
    intro _ j hj
    exact abs_nonpos_iff.1 (hall j hj)

/-- The whole expulsion: what is left beyond the real columns sits in rows without real entries. -/
lemma IsCanonical.expelled {t : Tableau Rat m n} (h : t.IsCanonical) (hzero : t.IsZeroBeyond real) :
    t.Expelled real (List.finRange m) (t.expel real 0).1 := by
  have hfold : ∀ (rows done : List (Fin m)) (state : Tableau Rat m n × List (Fin m)),
      t.Expelled real done state.1 →
      t.Expelled real (done ++ rows) (rows.foldl (Tableau.expelRow real 0) state).1 := by
    intro rows
    induction rows with
    | nil =>
      intro done state hs
      rw [List.append_nil]
      exact hs
    | cons row rest ih =>
      intro done state hs
      rw [List.foldl_cons, List.append_cons]
      exact ih (done ++ [row]) _ (hs.expelRow hzero row)
  have hstart : t.Expelled real [] t :=
    ⟨h, fun _ => Iff.rfl, fun _ => rfl, fun _ _ => rfl, by simp⟩
  exact hfold (List.finRange m) [] (t, []) hstart

/-- After the expulsion the rows beyond the real columns are cleared. -/
lemma Expelled.isCleared {t u : Tableau Rat m n} (h : t.Expelled real (List.finRange m) u)
    (hzero : t.IsZeroBeyond real) : u.IsCleared real := by
  intro i hi
  refine ⟨?_, h.cleared i (List.mem_finRange i) hi⟩
  rw [h.rhs]
  apply hzero
  rw [← h.basis i hi]
  exact hi

/-- A chosen pivot on a real column takes place in no cleared row and changes none. -/
lemma IsCleared.pivot {t : Tableau Rat m n} {p : Pivot m n} (h : t.IsCleared real)
    (htol : 0 ≤ settings.pivotTol) (hp : t.IsPivot real settings p) :
    (t.pivot p.row p.enters).IsCleared real := by
  have hcol := (entering_spec hp.entering).1
  have hne := hp.entry_ne_zero htol
  intro i hi
  rw [basis_pivot] at hi
  split at hi
  · omega
  · rename_i hrow
    obtain ⟨hrhs, hentry⟩ := h i hi
    have hi' : i ≠ p.row := fun e => hrow e.symm
    rw [rhs_pivot hne, if_neg hi', hentry p.enters hcol, zero_mul, sub_zero]
    refine ⟨hrhs, ?_⟩
    intro j hj
    rw [entry_pivot hne, if_neg hi', hentry p.enters hcol, zero_mul, sub_zero]
    exact hentry j hj

/-- A run on the real columns keeps cleared rows cleared. -/
lemma IsCleared.of_mem_trail {t : Tableau Rat m n} {budget : Nat} (h : t.IsCleared real)
    (htol : 0 ≤ settings.pivotTol) : ∀ u ∈ trail real settings budget t, u.IsCleared real := by
  apply trail_induction (fun u => u.IsCleared real) h
  intro u _ hu p hp
  exact hu.pivot htol (isPivot_of_choose hp)

/-- In a cleared tableau the basic solution is zero beyond the real columns, also along a real
column. -/
lemma IsCleared.ray_eq_zero {t : Tableau Rat m n} (h : t.IsCleared real) {col : Fin n}
    (hcol : col.val < real) (step : Rat) {j : Fin n} (hj : real ≤ j.val) : t.ray col step j = 0 := by
  have hne : j ≠ col := by
    intro e
    subst e
    omega
  unfold ray spread
  rw [if_neg hne, add_zero]
  apply Finset.sum_eq_zero
  intro i _
  split
  · rename_i e
    obtain ⟨hrhs, hentry⟩ := h i (e ▸ hj)
    simp only [hrhs, hentry col hcol, mul_zero, sub_zero]
  · rfl

/-- In a cleared tableau the basic solution is zero beyond the real columns. -/
lemma IsCleared.spread_eq_zero {t : Tableau Rat m n} (h : t.IsCleared real) {j : Fin n}
    (hj : real ≤ j.val) : t.spread t.rhs j = 0 := by
  apply Finset.sum_eq_zero
  intro i _
  split
  · rename_i e
    exact (h i (e ▸ hj)).1
  · rfl

end IntegerProgram.Tableau
