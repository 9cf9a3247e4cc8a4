import Mathlib
import IntegerProgram.Proofs.Tableau.Stages

/-!
# Bland's rule does not cycle

A run by Bland's rule without near ties comes to no basis twice, over exact scalars and with tolerances
zero. The basis of a tableau is the set of its basic columns (`Tableau.columns`), and a stretch of a run is
a `Tableau.Walk`.

* `Tableau.Represents.objectiveValue_eq`: the basis determines the objective value, so along a walk that
  returns to its basis the value stays and every pivot is degenerate (`Tableau.Walk.rhs_eq_zero`).
* `Tableau.Represents.reduced_eq` compares the reduced costs of two tableaux of one system.
* `Tableau.Walk.columns_ne`: a walk does not return. The last of the columns that come and go enters at one
  tableau and leaves at another, and their objective rows contradict each other.
* `Tableau.nodup_trail` and `Tableau.length_trail_le`: the bases along a trail are different, so there are at
  most as many as there are ways to choose the basic columns.
-/

namespace IntegerProgram.Tableau

variable {m n : Nat} {allowed : Nat} {settings : SimplexSettings Rat}

/-! ## Bases -/

/-- The basis of a tableau as a set of columns. -/
def columns (t : Tableau Rat m n) : Finset (Fin n) :=
  Finset.univ.image t.basis.get

lemma mem_columns {t : Tableau Rat m n} {j : Fin n} : j ∈ t.columns ↔ ∃ i, t.basis.get i = j := by
  simp [columns]

lemma basis_mem_columns (t : Tableau Rat m n) (i : Fin m) : t.basis.get i ∈ t.columns :=
  mem_columns.2 ⟨i, rfl⟩

/-- A canonical tableau has as many basic columns as rows. -/
lemma IsCanonical.card_columns {t : Tableau Rat m n} (h : t.IsCanonical) : t.columns.card = m := by
  unfold columns
  rw [Finset.card_image_of_injective _ fun _ _ => h.injective, Finset.card_fin]

/-- Only the entering column can become basic. -/
lemma eq_enters_of_mem_columns {t : Tableau Rat m n} {row : Fin m} {col j : Fin n}
    (hold : j ∉ t.columns) (hnew : j ∈ (t.pivot row col).columns) : j = col := by
  obtain ⟨i, hi⟩ := mem_columns.1 hnew
  rw [basis_pivot] at hi
  split at hi
  · exact hi.symm
  · exact absurd (mem_columns.2 ⟨i, hi⟩) hold

/-- Only the basic column of the pivot row can cease to be basic. -/
lemma eq_basis_of_notMem_columns {t : Tableau Rat m n} {row : Fin m} {col j : Fin n}
    (hold : j ∈ t.columns) (hnew : j ∉ (t.pivot row col).columns) : t.basis.get row = j := by
  obtain ⟨i, hi⟩ := mem_columns.1 hold
  by_contra hne
  refine hnew (mem_columns.2 ⟨i, ?_⟩)
  rw [basis_pivot, if_neg, hi]
  rintro rfl
  exact hne hi

/-- A spread point is zero at the columns that are not basic. -/
lemma spread_eq_zero_of_notMem {t : Tableau Rat m n} {j : Fin n} (h : j ∉ t.columns)
    (values : Fin m → Rat) : t.spread values j = 0 := by
  apply Finset.sum_eq_zero
  intro i _
  rw [if_neg]
  rintro rfl
  exact h (t.basis_mem_columns i)

/-- A spread point has its values at the basic columns. -/
lemma IsCanonical.spread_basis {t : Tableau Rat m n} (h : t.IsCanonical) (values : Fin m → Rat)
    (i : Fin m) : t.spread values (t.basis.get i) = values i := by
  unfold spread
  rw [Finset.sum_eq_single i]
  · rw [if_pos rfl]
  · intro k _ hne
    rw [if_neg fun e => hne (h.injective e)]
  · exact fun hi => absurd (Finset.mem_univ i) hi

/-- A pivot in a row with right-hand side zero leaves the basic solution where it is. -/
lemma spread_pivot_of_rhs_eq_zero {t : Tableau Rat m n} {row : Fin m} {col : Fin n}
    (hp : t.entry row col ≠ 0) (hrhs : t.rhs row = 0) (j : Fin n) :
    (t.pivot row col).spread (t.pivot row col).rhs j = t.spread t.rhs j := by
  apply Finset.sum_congr rfl
  intro i _
  rw [rhs_pivot_of_eq_zero hp hrhs, basis_pivot]
  by_cases hi : row = i
  · subst hi
    rw [hrhs, ite_self, ite_self]
  · rw [if_neg hi]

/-! ## Two tableaux of one system -/

section Compare

variable {t u system : Tableau Rat m n} {cost : Vector Rat n}

/-- A reduced cost that is not zero belongs to a column that is not basic. -/
lemma Prices.notMem_columns {j : Fin n} (h : t.Prices cost) (hj : t.reduced j ≠ 0) :
    j ∉ t.columns := by
  intro hmem
  obtain ⟨i, rfl⟩ := mem_columns.1 hmem
  exact hj (h.basic i)

/-- The basis determines the objective value. -/
lemma Represents.objectiveValue_eq (ht : t.Represents system cost) (hu : u.Represents system cost)
    (h : t.columns = u.columns) : t.objectiveValue = u.objectiveValue := by
  have hsatisfies : u.Satisfies (t.spread t.rhs) :=
    (hu.satisfies _).2 ((ht.satisfies _).1 ht.canonical.satisfies_spread)
  have hzero : ∀ i, u.reduced (t.basis.get i) = 0 := by
    intro i
    by_contra hne
    exact hu.prices.notMem_columns hne (h ▸ t.basis_mem_columns i)
  calc t.objectiveValue
      = ∑ j, cost.get j * t.spread t.rhs j := (ht.prices.cost_spread ht.canonical).symm
    _ = ∑ i, u.reduced (t.basis.get i) * t.rhs i + u.objectiveValue := by
        rw [hu.prices.value _ hsatisfies, sum_mul_spread]
    _ = u.objectiveValue := by simp only [hzero, zero_mul, Finset.sum_const_zero, zero_add]

/-- The reduced cost of a column by the objective row of another tableau: what the column costs there,
less what it displaces. -/
lemma Represents.reduced_eq (ht : t.Represents system cost) (hu : u.Represents system cost)
    (col : Fin n) :
    t.reduced col = u.reduced col - ∑ i, u.reduced (t.basis.get i) * t.entry i col := by
  -- the cost along the ray of the column, by both objective rows
  have hray : ∀ step, t.reduced col * step + t.objectiveValue =
      ∑ i, u.reduced (t.basis.get i) * (t.rhs i - step * t.entry i col) + u.reduced col * step
        + u.objectiveValue := by
    intro step
    have hsatisfies : u.Satisfies (t.ray col step) :=
      (hu.satisfies _).2 ((ht.satisfies _).1 (ht.canonical.satisfies_ray col step))
    rw [← ht.prices.cost_ray ht.canonical, hu.prices.value _ hsatisfies, sum_mul_ray]
  have hzero := hray 0
  have hone := hray 1
  simp only [mul_sub, Finset.sum_sub_distrib, zero_mul, mul_zero, one_mul, mul_one,
    Finset.sum_const_zero] at hzero hone
  linarith

/-- A column that improves by one objective row and not by another displaces a basic column that counts in
the other one. -/
lemma Represents.exists_displaced (ht : t.Represents system cost) (hu : u.Represents system cost)
    {col : Fin n} (hneg : t.reduced col < 0) (hnonneg : 0 ≤ u.reduced col) :
    ∃ i, 0 < u.reduced (t.basis.get i) * t.entry i col := by
  by_contra hnone
  push Not at hnone
  have hsum := Finset.sum_nonpos fun i (_ : i ∈ Finset.univ) => hnone i
  have hreduced := ht.reduced_eq hu col
  linarith

end Compare

/-! ## Walks -/

/-- A feasible tableau of a system and a cost at which the scan for the leaving row sees no near ties. -/
structure IsRegular (t system : Tableau Rat m n) (cost : Vector Rat n) (allowed : Nat)
    (settings : SimplexSettings Rat) : Prop where
  represents : t.Represents system cost
  feasible : t.IsFeasible
  sharp : t.Sharp allowed settings

/-- A stretch of a run of `k` pivots through regular tableaux. -/
structure Walk (system : Tableau Rat m n) (cost : Vector Rat n) (allowed : Nat)
    (settings : SimplexSettings Rat) (T : Nat → Tableau Rat m n) (p : Nat → Pivot m n) (k : Nat) :
    Prop where
  regular : ∀ i ≤ k, (T i).IsRegular system cost allowed settings
  isPivot : ∀ i < k, (T i).IsPivot allowed settings (p i)
  next : ∀ i < k, T (i + 1) = (T i).pivot (p i).row (p i).enters

/-- A property that is the same at the first and at the last moment, and that holds at some moments but not
at all, comes to hold at some step. -/
lemma exists_rise {Q : Nat → Prop} {k a b : Nat} (hends : Q 0 ↔ Q k) (ha : a ≤ k) (hb : b ≤ k)
    (hnot : ¬ Q a) (hyes : Q b) : ∃ i < k, ¬ Q i ∧ Q (i + 1) := by
  by_contra hnone
  push Not at hnone
  -- otherwise it can be traced back, from `b` to the start and from the end to `a`
  have back : ∀ i j, i ≤ j → j ≤ k → Q j → Q i := by
    intro i j hij
    induction j, hij using Nat.le_induction with
    | base => exact fun _ h => h
    | succ j _ ih =>
      intro hj hQ
      refine ih (by omega) ?_
      by_contra hno
      exact hnone j hj hno hQ
  exact hnot (back a k ha (le_refl k) (hends.1 (back 0 b (Nat.zero_le b) hb hyes)))

namespace Walk

variable {system : Tableau Rat m n} {cost : Vector Rat n} {T : Nat → Tableau Rat m n}
  {p : Nat → Pivot m n} {k : Nat}

/-- A walk without pivots. -/
lemma single {t : Tableau Rat m n} (ht : t.IsRegular system cost allowed settings) (q : Pivot m n) :
    Walk system cost allowed settings (fun _ => t) (fun _ => q) 0 where
  regular := fun _ _ => ht
  isPivot := nofun
  next := nofun

/-- A walk with a pivot before it. -/
lemma cons {t : Tableau Rat m n} {q : Pivot m n} (h : Walk system cost allowed settings T p k)
    (ht : t.IsRegular system cost allowed settings) (hq : t.IsPivot allowed settings q)
    (hfirst : T 0 = t.pivot q.row q.enters) :
    Walk system cost allowed settings (fun | 0 => t | i + 1 => T i) (fun | 0 => q | i + 1 => p i)
      (k + 1) where
  regular
    | 0, _ => ht
    | i + 1, hi => h.regular i (Nat.le_of_succ_le_succ hi)
  isPivot
    | 0, _ => hq
    | i + 1, hi => h.isPivot i (Nat.lt_of_succ_lt_succ hi)
  next
    | 0, _ => hfirst
    | i + 1, hi => h.next i (Nat.lt_of_succ_lt_succ hi)

section Exact

variable (h : Walk system cost allowed settings T p k) (hpivot : settings.pivotTol = 0)
  (hoptimality : settings.optimalityTol = 0)

include h

include hoptimality in
/-- The entering column has a negative reduced cost. -/
lemma reduced_enters_neg {i : Nat} (hi : i < k) : (T i).reduced (p i).enters < 0 := by
  have hlt := (entering_spec (h.isPivot i hi).entering).2
  rwa [hoptimality, neg_zero] at hlt

include hoptimality in
/-- The columns before the entering one have no negative reduced cost. -/
lemma reduced_nonneg {i : Nat} (hi : i < k) {j : Fin n} (hj : j < (p i).enters) :
    0 ≤ (T i).reduced j := by
  have hle := le_reduced_of_lt_entering (h.isPivot i hi).entering hj
  rwa [hoptimality, neg_zero] at hle

include hoptimality in
/-- The entering column is not basic. -/
lemma enters_notMem {i : Nat} (hi : i < k) : (p i).enters ∉ (T i).columns :=
  (h.regular i hi.le).represents.prices.notMem_columns (h.reduced_enters_neg hoptimality hi).ne

include hpivot in
/-- The pivot element is positive. -/
lemma entry_pos {i : Nat} (hi : i < k) : 0 < (T i).entry (p i).row (p i).enters :=
  hpivot ▸ lt_entry_of_leaving (h.isPivot i hi).leaving

/-- On a walk that returns to its basis, a column that is basic at one tableau and not at another enters at
some step. -/
lemma exists_enters (hreturn : (T 0).columns = (T k).columns) {j : Fin n} {a b : Nat} (ha : a ≤ k)
    (hb : b ≤ k) (hnot : j ∉ (T a).columns) (hyes : j ∈ (T b).columns) :
    ∃ i < k, (p i).enters = j := by
  obtain ⟨i, hi, hno, hin⟩ := exists_rise (Q := fun i => j ∈ (T i).columns)
    (by rw [hreturn]) ha hb hnot hyes
  rw [h.next i hi] at hin
  exact ⟨i, hi, (eq_enters_of_mem_columns hno hin).symm⟩

include hoptimality in
/-- On a walk that returns to its basis, a column that enters also leaves. -/
lemma exists_leaves (hreturn : (T 0).columns = (T k).columns) {e : Nat} (he : e < k) :
    ∃ l < k, (T l).basis.get (p l).row = (p e).enters := by
  have hafter : (p e).enters ∈ (T (e + 1)).columns := by
    rw [h.next e he]
    exact mem_columns.2 ⟨(p e).row, by rw [basis_pivot, if_pos rfl]⟩
  obtain ⟨l, hl, hin, hout⟩ := exists_rise (Q := fun i => (p e).enters ∉ (T i).columns)
    (by rw [hreturn]) he he.le (not_not.2 hafter) (h.enters_notMem hoptimality he)
  rw [h.next l hl] at hout
  exact ⟨l, hl, eq_basis_of_notMem_columns (not_not.1 hin) hout⟩

include hpivot hoptimality

/-- A pivot does not raise the objective value. -/
lemma objectiveValue_succ_le {i : Nat} (hi : i < k) :
    (T (i + 1)).objectiveValue ≤ (T i).objectiveValue := by
  have hpos := h.entry_pos hpivot hi
  have hred := h.reduced_enters_neg hoptimality hi
  have hstep : 0 ≤ (T i).rhs (p i).row / (T i).entry (p i).row (p i).enters :=
    div_nonneg ((h.regular i hi.le).feasible _) hpos.le
  rw [h.next i hi, objectiveValue_pivot hpos.ne']
  nlinarith

/-- Along a walk the objective value does not rise. -/
lemma objectiveValue_le {i j : Nat} (hij : i ≤ j) (hj : j ≤ k) :
    (T j).objectiveValue ≤ (T i).objectiveValue := by
  induction j, hij using Nat.le_induction with
  | base => exact le_refl _
  | succ j _ ih =>
    exact (h.objectiveValue_succ_le hpivot hoptimality hj).trans (ih (by omega))

/-- On a walk that returns to its basis, every pivot takes place in a row with right-hand side zero. -/
lemma rhs_eq_zero (hreturn : (T 0).columns = (T k).columns) {i : Nat} (hi : i < k) :
    (T i).rhs (p i).row = 0 := by
  have hvalue := (h.regular 0 (Nat.zero_le k)).represents.objectiveValue_eq
    (h.regular k (le_refl k)).represents hreturn
  have hbefore := h.objectiveValue_le hpivot hoptimality (Nat.zero_le i) hi.le
  have hafter := h.objectiveValue_le hpivot hoptimality hi (le_refl k)
  have hpos := h.entry_pos hpivot hi
  have hred := h.reduced_enters_neg hoptimality hi
  rw [h.next i hi, objectiveValue_pivot hpos.ne'] at hafter
  have hprod : 0 ≤ (T i).reduced (p i).enters
      * ((T i).rhs (p i).row / (T i).entry (p i).row (p i).enters) := by
    linarith
  have hratio := nonpos_of_mul_nonneg_right hprod hred
  rw [div_le_iff₀ hpos, zero_mul] at hratio
  exact le_antisymm hratio ((h.regular i hi.le).feasible _)

/-- On a walk that returns to its basis, the basic solution stays where it is. -/
lemma spread_eq (hreturn : (T 0).columns = (T k).columns) {i : Nat} (hi : i ≤ k) (j : Fin n) :
    (T i).spread (T i).rhs j = (T 0).spread (T 0).rhs j := by
  induction i with
  | zero => rfl
  | succ i ih =>
    rw [h.next i hi, spread_pivot_of_rhs_eq_zero (h.entry_pos hpivot hi).ne'
      (h.rhs_eq_zero hpivot hoptimality hreturn hi), ih (by omega)]

/-- A walk with a pivot does not return to its basis. -/
lemma columns_ne (hk : 0 < k) : (T 0).columns ≠ (T k).columns := by
  intro hreturn
  -- At step `e` enters the last of the columns that ever enter, and at step `l` it leaves for a column
  -- before it.
  obtain ⟨e, he, hmax⟩ := Finset.exists_max_image (Finset.range k) (fun i => (p i).enters)
    ⟨0, Finset.mem_range.2 hk⟩
  rw [Finset.mem_range] at he
  have hlast : ∀ i < k, (p i).enters ≤ (p e).enters := fun i hi => hmax i (Finset.mem_range.2 hi)
  obtain ⟨l, hl, hleaves⟩ := h.exists_leaves hoptimality hreturn he
  have hte := (h.regular e he.le).represents
  have htl := (h.regular l hl.le).represents
  have hbefore : (p l).enters < (p e).enters := by
    refine lt_of_le_of_ne (hlast l hl) ?_
    intro heq
    apply h.enters_notMem hoptimality hl
    rw [heq, ← hleaves]
    exact basis_mem_columns _ _
  -- The column that enters at step `l` does not improve by the objective row of step `e`, so it displaces a
  -- basic column that counts there.
  obtain ⟨i, hi⟩ := htl.exists_displaced hte (h.reduced_enters_neg hoptimality hl)
    (h.reduced_nonneg hoptimality he hbefore)
  have hnonbasic : (T l).basis.get i ∉ (T e).columns :=
    hte.prices.notMem_columns (left_ne_zero_of_mul hi.ne')
  -- That is not the last column, whose reduced cost is negative there and whose entry is the pivot element.
  have hlt : (T l).basis.get i < (p e).enters := by
    obtain ⟨a, ha, hcol⟩ := h.exists_enters hreturn he.le hl.le hnonbasic (basis_mem_columns _ i)
    refine lt_of_le_of_ne (hcol ▸ hlast a ha) ?_
    intro heq
    have hrow : i = (p l).row := htl.canonical.injective (heq.trans hleaves.symm)
    rw [heq, hrow] at hi
    exact absurd hi (not_lt.2 (mul_nonpos_of_nonpos_of_nonneg
      (h.reduced_enters_neg hoptimality he).le (h.entry_pos hpivot hl).le))
  -- So its row limits the entering column as well, to a step of zero, and it should have left instead.
  have hpos : 0 < (T l).entry i (p l).enters :=
    pos_of_mul_pos_right hi (h.reduced_nonneg hoptimality he hlt)
  have hrhs : (T l).rhs i = 0 := by
    rw [← htl.canonical.spread_basis (T l).rhs i, h.spread_eq hpivot hoptimality hreturn hl.le,
      ← h.spread_eq hpivot hoptimality hreturn he.le, spread_eq_zero_of_notMem hnonbasic]
  have htie : (T l).ratio (p l).enters (p l).row = (T l).ratio (p l).enters i := by
    unfold ratio
    rw [h.rhs_eq_zero hpivot hoptimality hreturn hl, hrhs, max_self, zero_div, zero_div]
  have hfirst := ((h.regular l hl.le).sharp _ (h.isPivot l hl).entering).leaving_first
    (h.isPivot l hl).leaving (hpivot ▸ hpos) htie
  rw [hleaves] at hfirst
  exact absurd hlt (not_lt.2 hfirst)

end Exact

end Walk

/-! ## Trails -/

/-- A later tableau of a trail is on the trail of the tableau after the first pivot. -/
lemma mem_trail_cases {budget : Nat} {t u : Tableau Rat m n}
    (hu : u ∈ trail allowed settings budget t) :
    u = t ∨ ∃ rest q, budget = rest + 1 ∧ t.choose allowed settings = .pivot q ∧
      u ∈ trail allowed settings rest (t.pivot q.row q.enters) := by
  cases budget with
  | zero => exact .inl (List.mem_singleton.1 hu)
  | succ rest =>
    unfold trail at hu
    split at hu
    · rename_i q hq
      rcases List.mem_cons.1 hu with rfl | hu
      · exact .inl rfl
      · exact .inr ⟨rest, q, rfl, hq, hu⟩
    · exact .inl (List.mem_singleton.1 hu)

section Trail

variable {system : Tableau Rat m n} {cost : Vector Rat n}

/-- Trails of regular tableaux consist of walks: there is one from before a pivot to each tableau of the trail
after it. -/
lemma exists_walk {budget : Nat} {t u : Tableau Rat m n} {q : Pivot m n}
    (ht : t.IsRegular system cost allowed settings) (hq : t.choose allowed settings = .pivot q)
    (hu : u ∈ trail allowed settings budget (t.pivot q.row q.enters))
    (hregular : ∀ v ∈ trail allowed settings budget (t.pivot q.row q.enters),
      v.IsRegular system cost allowed settings) :
    ∃ T p k, Walk system cost allowed settings T p (k + 1) ∧ T 0 = t ∧ T (k + 1) = u := by
  induction budget generalizing t q with
  | zero =>
    obtain rfl := List.mem_singleton.1 hu
    exact ⟨_, _, 0, (Walk.single (hregular _ hu) q).cons ht (isPivot_of_choose hq) rfl, rfl, rfl⟩
  | succ budget ih =>
    rcases mem_trail_cases hu with rfl | ⟨rest, q', hrest, hq', hu'⟩
    · exact ⟨_, _, 0, (Walk.single (hregular _ hu) q).cons ht (isPivot_of_choose hq) rfl, rfl, rfl⟩
    · obtain rfl : budget = rest := by omega
      have hlater : ∀ v ∈ trail allowed settings budget
          ((t.pivot q.row q.enters).pivot q'.row q'.enters),
          v.IsRegular system cost allowed settings := by
        intro v hv
        apply hregular
        simp only [trail, hq']
        exact List.mem_cons_of_mem _ hv
      obtain ⟨T, p, k, hwalk, hfirst, hlast⟩ :=
        ih (hregular _ (mem_trail_self _ _)) hq' hu' hlater
      exact ⟨_, _, k + 1, hwalk.cons ht (isPivot_of_choose hq) hfirst, rfl, hlast⟩

/-- No basis occurs twice along a trail. -/
lemma nodup_trail {budget : Nat} {t : Tableau Rat m n} (hpivot : settings.pivotTol = 0)
    (hoptimality : settings.optimalityTol = 0)
    (hregular : ∀ u ∈ trail allowed settings budget t, u.IsRegular system cost allowed settings) :
    ((trail allowed settings budget t).map columns).Nodup := by
  induction budget generalizing t with
  | zero => exact List.nodup_singleton _
  | succ budget ih =>
    unfold trail at hregular ⊢
    split at hregular
    · rename_i q hq
      obtain ⟨ht, hrest⟩ := List.forall_mem_cons.1 hregular
      rw [List.map_cons, List.nodup_cons]
      refine ⟨?_, ih hrest⟩
      intro hmem
      obtain ⟨u, hu, hreturn⟩ := List.mem_map.1 hmem
      obtain ⟨T, p, k, hwalk, rfl, rfl⟩ := exists_walk ht hq hu hrest
      exact hwalk.columns_ne hpivot hoptimality k.succ_pos hreturn.symm
    · exact List.nodup_singleton _

/-- A trail is no longer than there are ways to choose the basic columns. -/
lemma length_trail_le {budget : Nat} {t : Tableau Rat m n} (hpivot : settings.pivotTol = 0)
    (hoptimality : settings.optimalityTol = 0)
    (hregular : ∀ u ∈ trail allowed settings budget t, u.IsRegular system cost allowed settings) :
    (trail allowed settings budget t).length ≤ n.choose m := by
  have hnodup := nodup_trail hpivot hoptimality hregular
  have hsubset : ((trail allowed settings budget t).map columns).toFinset ⊆
      Finset.powersetCard m Finset.univ := by
    intro basis hbasis
    rw [List.mem_toFinset, List.mem_map] at hbasis
    obtain ⟨u, hu, rfl⟩ := hbasis
    exact Finset.mem_powersetCard_univ.2 (hregular u hu).represents.canonical.card_columns
  have hcard := Finset.card_le_card hsubset
  rwa [List.toFinset_card_of_nodup hnodup, List.length_map, Finset.card_powersetCard,
    Finset.card_fin] at hcard

end Trail

/-- A continued run stands at one tableau more than it makes pivots. -/
lemma length_pivots_runFrom (budget : Nat) (t : Tableau Rat m n) (done : List (Pivot m n)) :
    (runFrom allowed settings budget t done).pivots.length + 1
      = done.length + (trail allowed settings budget t).length := by
  induction budget generalizing t done with
  | zero =>
    unfold runFrom trail
    cases t.choose allowed settings <;> simp
  | succ budget ih =>
    unfold runFrom trail
    cases t.choose allowed settings with
    | optimal => simp
    | unbounded => simp
    | pivot q =>
      simp only [ih, List.length_cons]
      omega

/-- A run stands at one tableau more than it makes pivots. -/
lemma length_pivots_run (t : Tableau Rat m n) (allowed : Nat) (settings : SimplexSettings Rat)
    (budget : Nat) :
    (t.run allowed settings budget).pivots.length + 1
      = (trail allowed settings budget t).length := by
  rw [run, length_pivots_runFrom, List.length_nil, zero_add]

end IntegerProgram.Tableau
