import Mathlib
import IntegerProgram.Proofs.Binary64.Overflow
import IntegerProgram.Proofs.Tableau.Bland

/-!
# Tableaux with rows of infinite right-hand side

A tableau of binary64 numbers inside a larger one, whose further rows have the positive infinity as right-hand side
and whose further columns are zero in all other rows. As long as the numbers of the larger tableau are finite, and
its rows are chosen by finite ratios, the further rows never take part:

* `Tableau.Embeds` says how the two tableaux correspond; `Tableau.Embeds.pivot` and `Tableau.Embeds.withObjective`
  keep it.
* `Tableau.Embeds.scan` follows the scan for the leaving row: an infinite ratio never prevails over a finite one.
* `Tableau.Embeds.runFrom` and `Tableau.Embeds.expel` follow the two tableaux through runs and expulsions.
-/

namespace IntegerProgram

open Vectors

/-! ## Positions -/

section Positions

variable {k l : Nat} (ρ : Fin k ↪o Fin l)

/-- The positions that an increasing map reaches, in order. -/
lemma filter_finRange_range : (List.finRange l).filter (· ∈ Set.range ρ) = (List.finRange k).map ρ := by
  apply List.SortedLT.eq_of_mem_iff
  · exact ((List.sortedLT_finRange l).pairwise.filter _).sortedLT
  · exact (List.pairwise_map.2 ((List.sortedLT_finRange k).pairwise.imp ρ.lt_iff_lt.2)).sortedLT
  · simp

variable {ρ} {σ σ' : Type} {R : σ → σ' → Prop} {P : σ' → Prop} {f : σ → Fin k → σ} {g : σ' → Fin l → σ'}

/-- Two loops of which the second one also goes through positions that keep its state in line with the first. -/
lemma foldl_follows {s : σ} {s' : σ'}
    (keep : ∀ i s s', R s s' → P s' → P (g s' (ρ i)) → R (f s i) (g s' (ρ i)))
    (skip : ∀ i ∉ Set.range ρ, ∀ s s', R s s' → P s' → R s (g s' i)) (start : R s s')
    (along : ∀ u ∈ (List.finRange l).scanl g s', P u) :
    R ((List.finRange k).foldl f s) ((List.finRange l).foldl g s') := by
  have hpositions := filter_finRange_range ρ
  generalize List.finRange l = large at hpositions along ⊢
  generalize List.finRange k = small at hpositions ⊢
  -- the large positions are the small ones with further ones in between
  induction large generalizing small s s' with
  | nil =>
    cases small with
    | nil => exact start
    | cons i rest => cases hpositions
  | cons j large ih =>
    rw [List.scanl_cons, List.forall_mem_cons] at along
    obtain ⟨here, later⟩ := along
    have hnext : P (g s' j) := by
      cases large with
      | nil => exact later _ (by simp)
      | cons j' large => exact later _ (by simp)
    by_cases hj : j ∈ Set.range ρ
    · rw [List.filter_cons_of_pos (by simpa using hj)] at hpositions
      cases small with
      | nil => cases hpositions
      | cons i small =>
        rw [List.map_cons, List.cons.injEq] at hpositions
        obtain ⟨rfl, hpositions⟩ := hpositions
        exact ih (keep i s s' start here hnext) later small hpositions
    · rw [List.filter_cons_of_neg (by simpa using hj)] at hpositions
      exact ih (skip j hj s s' start here) later small hpositions

/-- A search that fails at all positions which the map does not reach. -/
lemma find?_follows {p : Fin k → Bool} {q : Fin l → Bool} (keep : ∀ i, q (ρ i) = p i)
    (skip : ∀ i ∉ Set.range ρ, q i = false) :
    (List.finRange l).find? q = ((List.finRange k).find? p).map ρ := by
  have hfilter : (List.finRange l).find? q = ((List.finRange l).filter (· ∈ Set.range ρ)).find? q := by
    rw [List.find?_filter]
    congr 1
    funext i
    by_cases hi : i ∈ Set.range ρ
    · simp [hi]
    · simp [hi, skip i hi]
  have hcomp : q ∘ ρ = p := funext keep
  rw [hfilter, filter_finRange_range, List.find?_map, hcomp]

section SideBySide

variable {a a' b b' : Nat} (f : Fin a ↪o Fin a') (g : Fin b ↪o Fin b')

lemma strictMono_addCases :
    StrictMono (Fin.addCases (fun i => (f i).castAdd b') fun i => (g i).natAdd a' : Fin (a + b) → Fin (a' + b')) := by
  intro x y hxy
  induction x using Fin.addCases with
  | left i =>
    induction y using Fin.addCases with
    | left j =>
      simp only [Fin.addCases_left]
      exact f.lt_iff_lt.2 hxy
    | right j =>
      simp only [Fin.addCases_left, Fin.addCases_right]
      exact (f i).isLt.trans_le (Nat.le_add_right _ _)
  | right i =>
    induction y using Fin.addCases with
    | left j =>
      have hlt : a + i.val < j.val := hxy
      omega
    | right j =>
      simp only [Fin.addCases_right]
      exact Nat.add_lt_add_left (g.lt_iff_lt.2 ((Fin.natAdd_lt_natAdd_iff a).1 hxy)) a'

/-- Two increasing maps side by side. -/
def sideBySide : Fin (a + b) ↪o Fin (a' + b') :=
  OrderEmbedding.ofStrictMono _ (strictMono_addCases f g)

@[simp] lemma sideBySide_castAdd (i : Fin a) : sideBySide f g (i.castAdd b) = (f i).castAdd b' := by
  unfold sideBySide
  rw [OrderEmbedding.coe_ofStrictMono, Fin.addCases_left]

@[simp] lemma sideBySide_natAdd (i : Fin b) : sideBySide f g (i.natAdd a) = (g i).natAdd a' := by
  unfold sideBySide
  rw [OrderEmbedding.coe_ofStrictMono, Fin.addCases_right]

lemma castAdd_notMem_range {i : Fin a'} : i.castAdd b' ∉ Set.range (sideBySide f g) ↔ i ∉ Set.range f := by
  rw [not_iff_not]
  constructor
  · rintro ⟨x, hx⟩
    induction x using Fin.addCases with
    | left j => exact ⟨j, by simpa using hx⟩
    | right j =>
      rw [sideBySide_natAdd, Fin.ext_iff, Fin.val_natAdd, Fin.val_castAdd] at hx
      omega
  · rintro ⟨j, rfl⟩
    exact ⟨j.castAdd b, sideBySide_castAdd f g j⟩

lemma natAdd_notMem_range {i : Fin b'} : i.natAdd a' ∉ Set.range (sideBySide f g) ↔ i ∉ Set.range g := by
  rw [not_iff_not]
  constructor
  · rintro ⟨x, hx⟩
    induction x using Fin.addCases with
    | left j =>
      rw [sideBySide_castAdd, Fin.ext_iff, Fin.val_natAdd, Fin.val_castAdd] at hx
      omega
    | right j => exact ⟨j, by simpa using hx⟩
  · rintro ⟨j, rfl⟩
    exact ⟨j.natAdd a, sideBySide_natAdd f g j⟩

end SideBySide

end Positions

/-! ## Rows -/

section Rows

variable {n n' : Nat} {κ : Fin n ↪o Fin n'}

/-- A row inside one with further columns, which are zero there. -/
structure Row.Embeds (κ : Fin n ↪o Fin n') (row : Row Float n) (row' : Row Float n') : Prop where
  coeffs : ∀ j, row'.coeffs.get (κ j) = row.coeffs.get j
  rhs : row'.rhs = row.rhs
  further : ∀ j ∉ Set.range κ, (row'.coeffs.get j == 0) = true

namespace Row.Embeds

variable {row lead : Row Float n} {row' lead' : Row Float n'} {factor : Float} {col : Fin n}

lemma sub (h : row.Embeds κ row') (hlead : lead.Embeds κ lead') (hfactor : Scalar.nonFinite? factor = none) :
    (row.sub factor lead).Embeds κ (row'.sub factor lead') where
  coeffs := by
    intro j
    simp only [Row.sub, get_zipWith, h.coeffs, hlead.coeffs]
  rhs := by
    simp only [Row.sub, h.rhs, hlead.rhs]
  further := by
    intro j hj
    simp only [Row.sub, get_zipWith]
    exact Binary64.beq_zero_sub_mul (h.further j hj) hfactor (hlead.further j hj)

lemma normalize (h : row.Embeds κ row') (hfinite : Scalar.nonFinite? (row.coeffs.get col) = none)
    (hne : (row.coeffs.get col == 0) = false) : (row.normalize col).Embeds κ (row'.normalize (κ col)) where
  coeffs := by
    intro j
    simp only [Row.normalize, get_replaceAt, get_map, h.coeffs, κ.eq_iff_eq]
  rhs := by
    simp only [Row.normalize, h.coeffs, h.rhs]
  further := by
    intro j hj
    have hcol : κ col ≠ j := fun e => hj ⟨col, e⟩
    simp only [Row.normalize, get_replaceAt, get_map, if_neg hcol, h.coeffs]
    exact Binary64.beq_zero_div (h.further j hj) hfinite hne

lemma eliminate (h : row.Embeds κ row') (hlead : lead.Embeds κ lead')
    (hfinite : Scalar.nonFinite? (row.coeffs.get col) = none) :
    (row.eliminate col lead).Embeds κ (row'.eliminate (κ col) lead') := by
  unfold Row.eliminate
  rw [h.coeffs]
  split
  · exact h
  · have hsub := h.sub hlead hfinite
    refine ⟨?_, hsub.rhs, ?_⟩
    · intro j
      simp only [get_replaceAt, hsub.coeffs, κ.eq_iff_eq]
    · intro j hj
      have hcol : κ col ≠ j := fun e => hj ⟨col, e⟩
      simp only [get_replaceAt, if_neg hcol]
      exact hsub.further j hj

end Row.Embeds

end Rows

/-! ## Tableaux -/

/-- A pivot, with its row and its columns renamed. -/
def Pivot.map {m n m' n' : Nat} (ρ : Fin m → Fin m') (κ : Fin n → Fin n') (p : Pivot m n) : Pivot m' n' :=
  ⟨ρ p.row, κ p.enters, κ p.leaves⟩

/-- A choice, with its row and its columns renamed. -/
def Choice.map {m n m' n' : Nat} (ρ : Fin m → Fin m') (κ : Fin n → Fin n') : Choice m n → Choice m' n'
  | .optimal => .optimal
  | .unbounded => .unbounded
  | .pivot p => .pivot (p.map ρ κ)

namespace Tableau

section Calm

variable {m n : Nat} (t : Tableau Float m n) (allowed : Nat) (settings : SimplexSettings Float)

/-- All coefficients are finite and all right-hand sides defined. -/
structure IsCalm : Prop where
  entry : ∀ i j, Scalar.nonFinite? (t.entry i j) = none
  reduced : ∀ j, Scalar.nonFinite? (t.reduced j) = none
  rhs : ∀ i, Scalar.isNaN (t.rhs i) = false

instance : Decidable t.IsCalm :=
  decidable_of_iff ((∀ i j, Scalar.nonFinite? (t.entry i j) = none) ∧
      (∀ j, Scalar.nonFinite? (t.reduced j) = none) ∧ ∀ i, Scalar.isNaN (t.rhs i) = false)
    ⟨fun h => ⟨h.1, h.2.1, h.2.2⟩, fun h => ⟨h.entry, h.reduced, h.rhs⟩⟩

lemma choose_of_entering_none {t : Tableau Float m n} {allowed : Nat} {settings : SimplexSettings Float}
    (h : t.entering allowed settings.optimalityTol = none) : t.choose allowed settings = .optimal := by
  unfold choose
  rw [h]

lemma choose_of_leaving {t : Tableau Float m n} {allowed : Nat} {settings : SimplexSettings Float} {col : Fin n}
    (h : t.entering allowed settings.optimalityTol = some col) {row? : Option (Fin m)}
    (hrow : t.leaving col settings.pivotTol = row?) :
    t.choose allowed settings = row?.elim .unbounded fun row => .pivot ⟨row, col, t.basis.get row⟩ := by
  unfold choose
  rw [h]
  simp only
  rw [hrow]
  cases row? <;> rfl

/-- The ratio of the row in which the next pivot is made, if there is one. -/
def chosenRatio : Option Float :=
  match t.choose allowed settings with
  | .pivot p => some (t.ratio p.enters p.row)
  | _ => none

/-- A tableau from which the next pivot, if there is one, is a step of finite length. -/
structure IsSteady : Prop extends t.IsCalm where
  chosen : ∀ r ∈ t.chosenRatio allowed settings, Scalar.nonFinite? r = none

instance : Decidable (t.IsSteady allowed settings) :=
  decidable_of_iff (t.IsCalm ∧ ∀ r ∈ t.chosenRatio allowed settings, Scalar.nonFinite? r = none)
    ⟨fun h => ⟨h.1, h.2⟩, fun h => ⟨h.toIsCalm, h.chosen⟩⟩

end Calm

/-! ### Infinite ratios -/

section Scan

variable {m n : Nat} {t : Tableau Float m n} {i k : Fin m} {col : Fin n} {tol r b : Float}
  {best : Option (Fin m × Float)}

/-- A scan keeps each row together with its ratio. -/
lemma ratio_of_mem_scan {rows : List (Fin m)} {b : Fin m × Float}
    (h : b ∈ rows.foldl (t.scanRow col tol) none) : b.2 = t.ratio col b.1 := by
  refine List.foldlRecOn (motive := fun best : Option (Fin m × Float) => ∀ b ∈ best, b.2 = t.ratio col b.1)
    rows _ (by simp) ?_ b h
  intro best hbest i _ b hb
  unfold scanRow at hb
  split at hb
  · exact hbest b hb
  · cases best with
    | none =>
      cases hb
      rfl
    | some b' =>
      simp only at hb
      split at hb
      · cases hb
        rfl
      · exact hbest b hb

lemma beats_infinity (hr : Scalar.nonFinite? r = none) (hb : Scalar.nonFinite? b = some .infinity) :
    t.beats i r k b = true := by
  have hlt : r < b - tieWindow := Binary64.lt_infinity hr (Binary64.nonFinite?_infinity_sub_finite hb rfl)
  unfold beats
  rw [Bool.or_eq_true]
  exact .inl (decide_eq_true hlt)

lemma infinity_beats_eq_false (hr : Scalar.nonFinite? r = some .infinity) (hb : Scalar.nonFinite? b = none) :
    t.beats i r k b = false := by
  have hlt : ¬ r < b - tieWindow := Binary64.not_infinity_lt hr _
  have hle : ¬ r ≤ b + tieWindow := Binary64.not_infinity_le hr (Binary64.nonFinite?_add_tieWindow hb)
  unfold beats
  rw [decide_eq_false hlt, decide_eq_false hle]
  rfl

/-- The first finite ratio of a scan prevails. -/
lemma scanRow_finite (hpos : ¬ t.entry i col ≤ tol) (hr : Scalar.nonFinite? (t.ratio col i) = none)
    (hbest : ∀ b ∈ best, Scalar.nonFinite? b.2 = some .infinity) :
    t.scanRow col tol best i = some (i, t.ratio col i) := by
  unfold scanRow
  rw [if_neg hpos]
  cases best with
  | none => rfl
  | some b => exact if_pos (beats_infinity hr (hbest b rfl))

/-- After an infinite ratio a scan without finite ones still has an infinite one. -/
lemma scanRow_infinite (hpos : ¬ t.entry i col ≤ tol) (hr : Scalar.nonFinite? (t.ratio col i) = some .infinity)
    (hbest : ∀ b ∈ best, Scalar.nonFinite? b.2 = some .infinity) :
    ∃ b, t.scanRow col tol best i = some b ∧ Scalar.nonFinite? b.2 = some .infinity := by
  unfold scanRow
  rw [if_neg hpos]
  cases best with
  | none => exact ⟨_, rfl, hr⟩
  | some b =>
    simp only
    split
    · exact ⟨_, rfl, hr⟩
    · exact ⟨b, rfl, hbest b rfl⟩

/-- An infinite ratio does not prevail over a finite one. -/
lemma scanRow_infinite_of_finite (hr : Scalar.nonFinite? (t.ratio col i) = some .infinity)
    (hb : Scalar.nonFinite? b = none) : t.scanRow col tol (some (k, b)) i = some (k, b) := by
  unfold scanRow
  simp only [infinity_beats_eq_false hr hb, Bool.false_eq_true, if_false, ite_self]

end Scan

variable {m n m' n' : Nat} {ρ : Fin m ↪o Fin m'} {κ : Fin n ↪o Fin n'} {t : Tableau Float m n}
  {t' : Tableau Float m' n'} {row i : Fin m} {col : Fin n}

/-- A tableau inside a larger one: the further rows have the positive infinity as right-hand side and a further column
as basic one, and the further columns are zero in the other rows. -/
structure Embeds (ρ : Fin m ↪o Fin m') (κ : Fin n ↪o Fin n') (t : Tableau Float m n)
    (t' : Tableau Float m' n') : Prop where
  rows : ∀ i, (t.rows.get i).Embeds κ (t'.rows.get (ρ i))
  objective : t.objective.Embeds κ t'.objective
  basis : ∀ i, t'.basis.get (ρ i) = κ (t.basis.get i)
  infinite : ∀ i ∉ Set.range ρ, Scalar.nonFinite? (t'.rhs i) = some .infinity
  furtherBasis : ∀ i ∉ Set.range ρ, t'.basis.get i ∉ Set.range κ

namespace Embeds

lemma entry (h : Embeds ρ κ t t') (i : Fin m) (j : Fin n) : t'.entry (ρ i) (κ j) = t.entry i j :=
  (h.rows i).coeffs j

lemma rhs (h : Embeds ρ κ t t') (i : Fin m) : t'.rhs (ρ i) = t.rhs i :=
  (h.rows i).rhs

lemma reduced (h : Embeds ρ κ t t') (j : Fin n) : t'.reduced (κ j) = t.reduced j :=
  h.objective.coeffs j

lemma objectiveValue (h : Embeds ρ κ t t') : t'.objectiveValue = t.objectiveValue := by
  unfold Tableau.objectiveValue
  rw [h.objective.rhs]

lemma ratio (h : Embeds ρ κ t t') (col : Fin n) (i : Fin m) : t'.ratio (κ col) (ρ i) = t.ratio col i := by
  unfold Tableau.ratio
  rw [h.rhs, h.entry]

/-! ### Pivots -/

/-- A pivot within the smaller tableau keeps the correspondence, if it leaves no right-hand side undefined. -/
lemma pivot (h : Embeds ρ κ t t') (calm : t'.IsCalm) (hne : (t.entry row col == 0) = false)
    (next : ∀ i, Scalar.isNaN ((t'.pivot (ρ row) (κ col)).rhs i) = false) :
    Embeds ρ κ (t.pivot row col) (t'.pivot (ρ row) (κ col)) := by
  have hfinite : ∀ i, Scalar.nonFinite? ((t.rows.get i).coeffs.get col) = none := by
    intro i
    have hi := calm.entry (ρ i) (κ col)
    rwa [h.entry] at hi
  have hlead := (h.rows row).normalize (hfinite row) hne
  constructor
  case rows =>
    intro i
    simp only [Tableau.pivot, get_replaceAt, get_map, ρ.eq_iff_eq]
    split
    · exact hlead
    · exact (h.rows i).eliminate hlead (hfinite i)
  case objective =>
    refine h.objective.eliminate hlead ?_
    have hcol := calm.reduced (κ col)
    rwa [h.reduced] at hcol
  case basis =>
    intro i
    simp only [Tableau.pivot, get_replaceAt, ρ.eq_iff_eq]
    split
    · rfl
    · exact h.basis i
  case infinite =>
    intro i hi
    -- a further row is never the pivot row: it is left alone, or loses something that keeps it infinite
    have hrow : ρ row ≠ i := fun e => hi ⟨row, e⟩
    have hdefined := next i
    simp only [Tableau.pivot, Tableau.rhs, get_replaceAt, get_map, if_neg hrow] at hdefined ⊢
    unfold Row.eliminate at hdefined ⊢
    split at hdefined
    · rename_i hzero
      rw [if_pos hzero]
      exact h.infinite i hi
    · rename_i hzero
      rw [if_neg hzero]
      exact Binary64.nonFinite?_infinity_sub (h.infinite i hi) hdefined
  case furtherBasis =>
    intro i hi
    have hrow : ρ row ≠ i := fun e => hi ⟨row, e⟩
    simp only [Tableau.pivot, get_replaceAt, if_neg hrow]
    exact h.furtherBasis i hi

/-- An objective that is finite and does not charge the further columns keeps the correspondence. -/
lemma withObjective {cost : Vector Float n} {cost' : Vector Float n'} (h : Embeds ρ κ t t')
    (hcost : ∀ j, cost'.get (κ j) = cost.get j) (hfurther : ∀ j ∉ Set.range κ, (cost'.get j == 0) = true)
    (hfinite : ∀ j, Scalar.nonFinite? (cost.get j) = none) :
    Embeds ρ κ (t.withObjective cost) (t'.withObjective cost') := by
  refine ⟨h.rows, ?_, h.basis, h.infinite, h.furtherBasis⟩
  refine foldl_follows (ρ := ρ) (R := Row.Embeds κ) (P := fun _ => True) ?_ ?_ ⟨hcost, rfl, hfurther⟩
    (fun _ _ => trivial)
  · intro i row row' hrow _ _
    unfold priceOut
    rw [h.basis, hcost]
    split
    · exact hrow
    · exact hrow.sub (h.rows i) (hfinite _)
  · intro i hi row row' hrow _
    unfold priceOut
    rwa [if_pos (hfurther _ (h.furtherBasis i hi))]

/-! ### Bland's choice -/

/-- No further column enters. -/
lemma entering {allowed allowed' : Nat} {tol : Float} (h : Embeds ρ κ t t') (htol : 0 ≤ tol)
    (hallowed : ∀ j, (κ j).val < allowed' ↔ j.val < allowed) :
    t'.entering allowed' tol = (t.entering allowed tol).map κ := by
  refine find?_follows ?_ ?_
  · intro j
    rw [h.reduced, decide_eq_decide.2 (hallowed j)]
  · intro j hj
    have hnot := Binary64.not_lt_neg_of_beq_zero (h.objective.further j hj) htol
    rw [Bool.and_eq_false_iff]
    exact .inr (decide_eq_false hnot)

/-- The best rows so far of two scans: both have found no finite ratio yet, and the second one has a row if the first
one has, or both have found the same row by a finite ratio. -/
inductive SameBest (ρ : Fin m ↪o Fin m') (t : Tableau Float m n) (col : Fin n) (tol : Float) :
    Option (Fin m × Float) → Option (Fin m' × Float) → Prop
  | pending {best : Option (Fin m × Float)} {best' : Option (Fin m' × Float)}
      (small : ∀ b ∈ best, Scalar.nonFinite? b.2 = some .infinity)
      (large : ∀ b ∈ best', Scalar.nonFinite? b.2 = some .infinity) (either : best' = none → best = none) :
      SameBest ρ t col tol best best'
  | found (i : Fin m) (r : Float) (above : ¬ t.entry i col ≤ tol) (finite : Scalar.nonFinite? r = none) :
      SameBest ρ t col tol (some (i, r)) (some (ρ i, r))

variable {tol : Float}

lemma scanRow_keep {best : Option (Fin m × Float)} {best' : Option (Fin m' × Float)} (h : Embeds ρ κ t t')
    (calm : t'.IsCalm) (htol : 0 ≤ tol) (hbest : SameBest ρ t col tol best best') (i : Fin m) :
    SameBest ρ t col tol (t.scanRow col tol best i) (t'.scanRow (κ col) tol best' (ρ i)) := by
  by_cases above : t.entry i col ≤ tol
  · have above' : t'.entry (ρ i) (κ col) ≤ tol := by rwa [h.entry]
    unfold scanRow
    rwa [if_pos above, if_pos above']
  · have above' : ¬ t'.entry (ρ i) (κ col) ≤ tol := by rwa [h.entry]
    have hfinite := calm.entry (ρ i) (κ col)
    have hpos := Binary64.pos_of_not_le hfinite htol above'
    have hratio : Scalar.nonFinite? (t'.ratio (κ col) (ρ i)) = none ∨
        Scalar.nonFinite? (t'.ratio (κ col) (ρ i)) = some .infinity := Binary64.nonFinite?_ratio _ hfinite hpos
    have hsame := h.ratio col i
    cases hbest with
    | pending small large either =>
      -- the first finite ratio beats whatever infinite ones were found before, in both scans
      rcases hratio with hr | hr
      · rw [scanRow_finite above (hsame ▸ hr) small, scanRow_finite above' hr large, hsame]
        exact .found i _ above (hsame ▸ hr)
      · obtain ⟨b, hb, hinf⟩ := scanRow_infinite above (hsame ▸ hr) small
        obtain ⟨b', hb', hinf'⟩ := scanRow_infinite above' hr large
        rw [hb, hb']
        exact .pending (by simpa using hinf) (by simpa using hinf') nofun
    | found k b abovek hb =>
      rcases hratio with hr | hr
      · have hbeats : t'.beats (ρ i) (t'.ratio (κ col) (ρ i)) (ρ k) b = t.beats i (t.ratio col i) k b := by
          unfold beats
          rw [hsame, h.basis, h.basis, decide_eq_decide.2 κ.lt_iff_lt]
        unfold scanRow
        rw [if_neg above, if_neg above']
        simp only [hbeats]
        rw [hsame] at hr ⊢
        split
        · exact .found i _ above hr
        · exact .found k b abovek hb
      · rw [scanRow_infinite_of_finite (hsame ▸ hr) hb, scanRow_infinite_of_finite hr hb]
        exact .found k b abovek hb

/-- The further rows do not take part in the scan. -/
lemma scanRow_skip {best : Option (Fin m × Float)} {best' : Option (Fin m' × Float)} (h : Embeds ρ κ t t')
    (calm : t'.IsCalm) (htol : 0 ≤ tol) (hbest : SameBest ρ t col tol best best') {i : Fin m'}
    (hi : i ∉ Set.range ρ) : SameBest ρ t col tol best (t'.scanRow (κ col) tol best' i) := by
  by_cases above : t'.entry i (κ col) ≤ tol
  · unfold scanRow
    rwa [if_pos above]
  · have hfinite := calm.entry i (κ col)
    have hpos := Binary64.pos_of_not_le hfinite htol above
    have hr : Scalar.nonFinite? (t'.ratio (κ col) i) = some .infinity :=
      Binary64.nonFinite?_infinity_ratio (h.infinite i hi) hfinite hpos
    cases hbest with
    | pending small large either =>
      obtain ⟨b', hb', hinf'⟩ := scanRow_infinite above hr large
      rw [hb']
      exact .pending small (by simpa using hinf') nofun
    | found k b abovek hb =>
      rw [scanRow_infinite_of_finite hr hb]
      exact .found k b abovek hb

lemma scan (h : Embeds ρ κ t t') (calm : t'.IsCalm) (htol : 0 ≤ tol) (col : Fin n) :
    SameBest ρ t col tol ((List.finRange m).foldl (t.scanRow col tol) none)
      ((List.finRange m').foldl (t'.scanRow (κ col) tol) none) :=
  foldl_follows (P := fun _ => True) (fun i _ _ hbest _ _ => h.scanRow_keep calm htol hbest i)
    (fun _ hi _ _ hbest _ => h.scanRow_skip calm htol hbest hi) (.pending nofun nofun fun _ => rfl) (fun _ _ => trivial)

variable {allowed allowed' : Nat} {settings : SimplexSettings Float}

/-- Both tableaux choose the same pivot, unless the larger one would choose by an infinite ratio. -/
lemma choose (h : Embeds ρ κ t t') (steady : t'.IsSteady allowed' settings) (hpivot : 0 ≤ settings.pivotTol)
    (hopt : 0 ≤ settings.optimalityTol) (hallowed : ∀ j, (κ j).val < allowed' ↔ j.val < allowed) :
    t'.choose allowed' settings = (t.choose allowed settings).map ρ κ ∧
    ∀ p, t.choose allowed settings = .pivot p → (t.entry p.row p.enters == 0) = false := by
  have hentering := h.entering hopt hallowed
  cases hcol : t.entering allowed settings.optimalityTol with
  | none =>
    rw [hcol] at hentering
    rw [choose_of_entering_none hcol, choose_of_entering_none hentering]
    exact ⟨rfl, nofun⟩
  | some col =>
    rw [hcol, Option.map_some] at hentering
    have hscan := h.scan steady.toIsCalm hpivot col
    generalize hbest : (List.finRange m).foldl (t.scanRow col settings.pivotTol) none = best at hscan
    generalize hbest' : (List.finRange m').foldl (t'.scanRow (κ col) settings.pivotTol) none = best' at hscan
    have hleaving : t.leaving col settings.pivotTol = best.map (·.1) := congrArg _ hbest
    have hleaving' : t'.leaving (κ col) settings.pivotTol = best'.map (·.1) := congrArg _ hbest'
    rw [choose_of_leaving hcol hleaving]
    have hchoose' := choose_of_leaving hentering hleaving'
    cases hscan with
    | pending small large either =>
      cases best' with
      | none =>
        rw [either rfl, hchoose']
        exact ⟨rfl, nofun⟩
      | some b =>
        -- a steady tableau does not choose by an infinite ratio
        have hfinite := steady.chosen (t'.ratio (κ col) b.1) (by rw [chosenRatio, hchoose']; rfl)
        rw [← ratio_of_mem_scan hbest', large b rfl] at hfinite
        cases hfinite
    | found i r above hr =>
      rw [hchoose']
      simp only [Option.map_some, Option.elim_some, Choice.map, Pivot.map, h.basis, true_and]
      rintro p ⟨⟩
      have hfinite := steady.entry (ρ i) (κ col)
      rw [h.entry] at hfinite
      exact Binary64.beq_zero_of_pos (Binary64.pos_of_not_le hfinite hpivot above)

/-! ### Runs -/

/-- Two runs that keep to corresponding tableaux. -/
structure SameRun (ρ : Fin m ↪o Fin m') (κ : Fin n ↪o Fin n') (phase : Phase Float m n)
    (phase' : Phase Float m' n') : Prop where
  ending : phase'.ending = phase.ending
  tableau : Embeds ρ κ phase.tableau phase'.tableau
  pivots : phase'.pivots = phase.pivots.map (Pivot.map ρ κ)

lemma SameRun.length_pivots {phase : Phase Float m n} {phase' : Phase Float m' n'} (h : SameRun ρ κ phase phase') :
    phase'.pivots.length = phase.pivots.length := by
  rw [h.pivots, List.length_map]

lemma runFrom {t : Tableau Float m n} {t' : Tableau Float m' n'} (hpivot : 0 ≤ settings.pivotTol)
    (hopt : 0 ≤ settings.optimalityTol)
    (hallowed : ∀ j, (κ j).val < allowed' ↔ j.val < allowed) (budget : Nat) (h : Embeds ρ κ t t')
    (steady : ∀ u ∈ trail allowed' settings budget t', u.IsSteady allowed' settings) (done : List (Pivot m n)) :
    SameRun ρ κ (Tableau.runFrom allowed settings budget t done)
      (Tableau.runFrom allowed' settings budget t' (done.map (Pivot.map ρ κ))) := by
  obtain ⟨hchoose, hne⟩ := h.choose (steady t' (mem_trail_self budget t')) hpivot hopt hallowed
  cases hc : t.choose allowed settings with
  | optimal =>
    rw [hc] at hchoose
    rw [runFrom_optimal hc, runFrom_optimal hchoose]
    exact ⟨rfl, h, List.map_reverse.symm⟩
  | unbounded =>
    rw [hc] at hchoose
    rw [runFrom_unbounded hc, runFrom_unbounded hchoose]
    exact ⟨rfl, h, List.map_reverse.symm⟩
  | pivot p =>
    rw [hc] at hchoose
    cases budget with
    | zero =>
      rw [runFrom_zero hc, runFrom_zero hchoose]
      exact ⟨rfl, h, List.map_reverse.symm⟩
    | succ budget =>
      have later : ∀ u ∈ trail allowed' settings budget (t'.pivot (ρ p.row) (κ p.enters)),
          u.IsSteady allowed' settings := by
        intro u hu
        refine steady u ?_
        unfold trail
        rw [hchoose]
        exact List.mem_cons_of_mem _ hu
      have hnext := h.pivot (steady t' (mem_trail_self _ t')).toIsCalm (hne p hc)
        (later _ (mem_trail_self budget _)).rhs
      rw [runFrom_succ hc, runFrom_succ hchoose]
      exact runFrom hpivot hopt hallowed budget hnext later (p :: done)

/-! ### Expulsions -/

variable {real real' : Nat}

/-- A row is expelled in both tableaux, by the same column. -/
lemma expelRow_keep {redundant : List (Fin m)} {redundant' : List (Fin m')} (h : Embeds ρ κ t t')
    (hredundant : redundant' = redundant.map ρ) (calm : t'.IsCalm) (htol : 0 ≤ tol)
    (hreal : ∀ j, (κ j).val < real' ↔ j.val < real)
    (next : (expelRow real' tol (t', redundant') (ρ i)).1.IsCalm) :
    Embeds ρ κ (expelRow real tol (t, redundant) i).1 (expelRow real' tol (t', redundant') (ρ i)).1 ∧
    (expelRow real' tol (t', redundant') (ρ i)).2 = (expelRow real tol (t, redundant) i).2.map ρ := by
  have hfind : (List.finRange n').find? (fun j =>
        decide (j.val < real') && decide (tol < Scalar.abs (t'.entry (ρ i) j))) =
      ((List.finRange n).find? fun j =>
        decide (j.val < real) && decide (tol < Scalar.abs (t.entry i j))).map κ := by
    refine find?_follows ?_ ?_
    · intro j
      rw [h.entry, decide_eq_decide.2 (hreal j)]
    · intro j hj
      -- further columns hold zeros in the common rows
      have hzero : (t'.entry (ρ i) j == 0) = true := (h.rows i).further j hj
      rw [Bool.and_eq_false_iff]
      refine .inr (decide_eq_false fun hlt => ?_)
      rw [Binary64.beq_zero_eq_false htol hlt] at hzero
      cases hzero
  unfold expelRow at next ⊢
  simp only [h.basis, hreal, hfind] at next ⊢
  split
  · exact ⟨h, hredundant⟩
  · rename_i hbasis
    rw [if_neg hbasis] at next
    cases hcol : (List.finRange n).find? fun j =>
        decide (j.val < real) && decide (tol < Scalar.abs (t.entry i j)) with
    | none =>
      simp only [Option.map_none]
      exact ⟨h, by rw [hredundant, List.map_append]; rfl⟩
    | some col =>
      rw [hcol] at next
      have habove := List.find?_some hcol
      simp only [Bool.and_eq_true, decide_eq_true_eq] at habove
      simp only [Option.map_some] at next ⊢
      exact ⟨h.pivot calm (Binary64.beq_zero_eq_false htol habove.2) next.rhs, hredundant⟩

/-- The further rows have nothing to expel. -/
lemma expel (h : Embeds ρ κ t t') (htol : 0 ≤ tol) (hreal : ∀ j, (κ j).val < real' ↔ j.val < real)
    (hfurther : ∀ j ∉ Set.range κ, j.val < real')
    (calm : ∀ state ∈ (List.finRange m').scanl (expelRow real' tol) (t', []), state.1.IsCalm) :
    Embeds ρ κ (t.expel real tol).1 (t'.expel real' tol).1 ∧
    (t'.expel real' tol).2 = (t.expel real tol).2.map ρ := by
  refine foldl_follows (ρ := ρ) (P := fun state : Tableau Float m' n' × List (Fin m') => state.1.IsCalm)
    (R := fun (state : Tableau Float m n × List (Fin m)) state' =>
      Embeds ρ κ state.1 state'.1 ∧ state'.2 = state.2.map ρ) (s := (t, [])) ?_ ?_ ⟨h, rfl⟩ calm
  · rintro i ⟨t, redundant⟩ ⟨t', redundant'⟩ ⟨h, hredundant⟩ hcalm hnext
    exact h.expelRow_keep hredundant hcalm htol hreal hnext
  · rintro i hi ⟨t, redundant⟩ ⟨t', redundant'⟩ ⟨h, hredundant⟩ -
    unfold expelRow
    simp only
    rw [if_pos (hfurther _ (h.furtherBasis i hi))]
    exact ⟨h, hredundant⟩

end Embeds

end Tableau

end IntegerProgram
