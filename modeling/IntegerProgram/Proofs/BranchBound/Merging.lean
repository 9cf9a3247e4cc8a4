import Mathlib
import IntegerProgram.BranchBound.Node
import IntegerProgram.Proofs.Box
import IntegerProgram.Proofs.Binary64.Whole

/-!
# Merging the cuts of a node

The box of a node, for every number system whose defined values are ordered.

* `Box.getElem?_cutAll`: cutting a box cuts each variable's interval by the cuts at that variable.
* `Interval.isMeet_cutAll`: an interval after a list of cuts has the greatest of all lower bounds and the least of
  all upper bounds.
* `Interval.IsMeet.inside`: more cuts leave less, so that neither order nor repetition matters.
* `Node.box_merges`: the box of a node is the intersection of its cuts, in any order.
-/

namespace IntegerProgram

variable {α : Type} {a : α} {c : Cut α} {cuts cuts' : List (Cut α)} {i k merged merged' : Interval α}

namespace Interval

/-- All upper bounds that an interval and a list of cuts set. -/
def uppers (i : Interval α) (cuts : List (Cut α)) : List α :=
  i.upper.toList ++ cuts.filterMap (·.upper)

lemma mem_uppers_append : a ∈ i.uppers (cuts ++ [c]) ↔ a ∈ i.uppers cuts ∨ a ∈ c.upper := by
  simp [uppers, or_assoc]

lemma uppers_subset (h : cuts ⊆ cuts') : i.uppers cuts ⊆ i.uppers cuts' :=
  List.append_subset.2 ⟨List.subset_append_left _ _, fun _ hu =>
    List.mem_append_right _ (List.filterMap_subset _ h hu)⟩

variable [Scalar α]

/-- What a list of cuts, all taken to be at the variable of the interval, leaves of it. -/
def cutAll (i : Interval α) (cuts : List (Cut α)) : Interval α :=
  cuts.foldl (fun i c => c.apply i) i

/-- All lower bounds that an interval and a list of cuts set; a cut without one sets the bottom of the number
system. -/
def lowers (i : Interval α) (cuts : List (Cut α)) : List α :=
  i.lower :: cuts.filterMap fun c => c.lower <|> Scalar.bottom?

/-- The bounds are the tightest of those that an interval and a list of cuts set. -/
structure IsMeet (i : Interval α) (cuts : List (Cut α)) (merged : Interval α) : Prop where
  /-- The lower bound is one of the lower bounds. -/
  lower_mem : merged.lower ∈ i.lowers cuts
  /-- No lower bound is above it. -/
  le_lower : ∀ l ∈ i.lowers cuts, l ≤ merged.lower
  /-- The upper bound is absent exactly if none is set. -/
  upper_eq_none : merged.upper = none ↔ i.uppers cuts = []
  /-- The upper bound is one of the upper bounds. -/
  upper_mem : ∀ u ∈ merged.upper, u ∈ i.uppers cuts
  /-- No upper bound is below it. -/
  upper_le : ∀ u ∈ merged.upper, ∀ u' ∈ i.uppers cuts, u ≤ u'

/-- The bounds of an interval lie within those of another. -/
structure Inside (i k : Interval α) : Prop where
  lower : k.lower ≤ i.lower
  upper : ∀ u ∈ k.upper, ∃ u' ∈ i.upper, u' ≤ u

/-- The bounds of two intervals pass for equal. -/
def Alike (i k : Interval α) : Prop :=
  (i.lower == k.lower) = true ∧ (i.upper == k.upper) = true

instance (i k : Interval α) : Decidable (i.Alike k) :=
  inferInstanceAs (Decidable (_ ∧ _))

lemma mem_lowers_append : a ∈ i.lowers (cuts ++ [c]) ↔
    a ∈ i.lowers cuts ∨ a ∈ (c.lower <|> (Scalar.bottom? : Option α)) := by
  simp [lowers, or_assoc]

lemma lowers_subset (h : cuts ⊆ cuts') : i.lowers cuts ⊆ i.lowers cuts' :=
  List.cons_subset_cons _ (List.filterMap_subset _ h)

/-- More cuts leave less. -/
lemma IsMeet.inside (h : i.IsMeet cuts merged) (h' : i.IsMeet cuts' merged') (hsub : cuts ⊆ cuts') :
    merged'.Inside merged where
  lower := h'.le_lower _ (lowers_subset hsub h.lower_mem)
  upper := by
    intro u hu
    have hmem : u ∈ i.uppers cuts' := uppers_subset hsub (h.upper_mem u hu)
    cases e : merged'.upper with
    | none =>
      rw [h'.upper_eq_none.1 e] at hmem
      cases hmem
    | some u' => exact ⟨u', rfl, h'.upper_le u' e u hmem⟩

lemma isEmpty_iff : i.isEmpty = true ↔ ∃ u ∈ i.upper, u < i.lower := by
  unfold isEmpty
  cases i.upper <;> simp

lemma isEmpty_eq_false_iff : i.isEmpty = false ↔ ∀ u ∈ i.upper, ¬ u < i.lower := by
  rw [← Bool.not_eq_true, isEmpty_iff]
  simp

end Interval

namespace Box

variable [Scalar α]

/-- The intervals of two boxes are equal in number and pass for equal. -/
def Alike (box box' : Box α) : Prop :=
  ∀ j : Nat, Option.Rel Interval.Alike box[j]? box'[j]?

/-- The intervals of a box lie within those of another. -/
def Inside (box box' : Box α) : Prop :=
  ∀ j : Nat, Option.Rel Interval.Inside box[j]? box'[j]?

/-- Cuts at variables of the box, made one after the other. -/
lemma cutAll_cons {box : Box α} (h : c.var < box.size) :
    box.cutAll (c :: cuts) = Box.cutAll (box.set c.var (c.apply box[c.var])) cuts := by
  unfold Box.cutAll
  rw [List.foldlM_cons, Box.cut_eq_ok h]
  rfl

/-- Cutting a box cuts each interval by the cuts at its variable. -/
lemma getElem?_cutAll {box result : Box α} (h : ∀ c ∈ cuts, c.var < box.size)
    (hresult : box.cutAll cuts = .ok result) (j : Nat) :
    result[j]? = box[j]?.map (·.cutAll (cuts.filter (·.var = j))) := by
  induction cuts generalizing box with
  | nil =>
    cases hresult
    cases result[j]? <;> rfl
  | cons c rest ih =>
    obtain ⟨hc, hrest⟩ := List.forall_mem_cons.1 h
    rw [cutAll_cons hc] at hresult
    rw [ih (by simpa using hrest) hresult, Array.getElem?_set]
    -- the first cut is at the variable in question or leaves its interval alone
    by_cases e : c.var = j
    · subst e
      rw [if_pos rfl, Array.getElem?_eq_getElem hc]
      simp [Interval.cutAll]
    · simp [e]

lemma isEmpty_iff {box : Box α} : box.isEmpty = true ↔ ∃ i ∈ box, ∃ u ∈ i.upper, u < i.lower := by
  unfold isEmpty
  rw [Array.any_eq_true']
  simp only [Interval.isEmpty_iff]

end Box

lemma Node.box_eq_of_cutAll [Scalar α] {base result : Box α} {node : Node α}
    (h : base.cutAll node.cuts = .ok result) :
    node.box base = .ok (if result.isEmpty then none else some result) := by
  unfold Node.box
  rw [h]
  rfl

section Ordered

variable [Scalar α] [OrderedScalar α]

open OrderedScalar

namespace Cut

/-- The lower bound that a cut leaves is the old one or the cut's, and below neither. -/
lemma lower_apply (hc : c.IsDefined) (hi : i.IsDefined) :
    ((c.apply i).lower = i.lower ∨ (c.apply i).lower ∈ (c.lower <|> (Scalar.bottom? : Option α))) ∧
    i.lower ≤ (c.apply i).lower ∧
    ∀ l ∈ (c.lower <|> (Scalar.bottom? : Option α)), l ≤ (c.apply i).lower := by
  show (Scalar.raise i.lower c.lower = _ ∨ Scalar.raise i.lower c.lower ∈ _) ∧ _ ≤ Scalar.raise i.lower c.lower ∧
    ∀ l ∈ _, l ≤ Scalar.raise i.lower c.lower
  have hdefined := hc.lower_or_bottom
  unfold Scalar.raise
  cases e : (c.lower <|> (Scalar.bottom? : Option α)) with
  | none => exact ⟨.inl rfl, le_refl hi.lower, by simp⟩
  | some l =>
    have hl := hdefined l e
    refine ⟨?_, le_max_left hi.lower hl, ?_⟩
    · exact (max_eq i.lower l).imp_right fun h => congrArg some h.symm
    · rintro l' ⟨⟩
      exact le_max_right hi.lower hl

/-- The upper bound that a cut leaves is the old one or the cut's, and above neither. -/
lemma upper_apply (hc : c.IsDefined) (hi : i.IsDefined) :
    ((c.apply i).upper = none ↔ i.upper = none ∧ c.upper = none) ∧
    ∀ u ∈ (c.apply i).upper, (u ∈ i.upper ∨ u ∈ c.upper) ∧
      (∀ u' ∈ i.upper, u ≤ u') ∧ ∀ u' ∈ c.upper, u ≤ u' := by
  show (tighter i.upper c.upper = none ↔ _) ∧ ∀ u ∈ tighter i.upper c.upper, _
  have hupper := hi.upper
  have hcut := hc.upper
  cases hiu : i.upper with
  | none =>
    cases hcu : c.upper with
    | none => simp [tighter]
    | some b => simpa [tighter] using le_refl (hcut b hcu)
  | some a =>
    cases hcu : c.upper with
    | none => simpa [tighter] using le_refl (hupper a hiu)
    | some b =>
      have ha := hupper a hiu
      have hb := hcut b hcu
      refine ⟨by simp [tighter], ?_⟩
      rintro u ⟨⟩
      simp only [Option.mem_some_iff, forall_eq']
      refine ⟨?_, min_le_left ha hb, min_le_right ha hb⟩
      exact (min_eq a b).imp Eq.symm Eq.symm

end Cut

namespace Interval

/-- Cuts keep the bounds of an interval defined. -/
lemma IsDefined.cutAll (hi : i.IsDefined) (hcuts : ∀ c ∈ cuts, c.IsDefined) : (i.cutAll cuts).IsDefined := by
  induction cuts generalizing i with
  | nil => exact hi
  | cons c rest ih =>
    obtain ⟨hc, hrest⟩ := List.forall_mem_cons.1 hcuts
    exact ih (Cut.isDefined_apply hc hi) hrest

lemma IsMeet.nil (hi : i.IsDefined) : i.IsMeet [] i where
  lower_mem := List.mem_cons_self
  le_lower := by
    intro l hl
    rw [lowers, List.filterMap_nil, List.mem_singleton] at hl
    subst hl
    exact le_refl hi.lower
  upper_eq_none := by
    simp [uppers]
  upper_mem := by
    simp [uppers]
  upper_le := by
    intro u hu u' hu'
    simp only [uppers, List.filterMap_nil, List.append_nil, Option.mem_toList] at hu'
    rw [Option.mem_unique hu' hu]
    exact le_refl (hi.upper u hu)

/-- One more cut keeps the bounds the tightest. -/
lemma IsMeet.append (h : i.IsMeet cuts merged) (hmerged : merged.IsDefined) (hc : c.IsDefined) :
    i.IsMeet (cuts ++ [c]) (c.apply merged) := by
  obtain ⟨hlower, hle, hlower'⟩ := Cut.lower_apply hc hmerged
  obtain ⟨hnone, hupper⟩ := Cut.upper_apply hc hmerged
  constructor
  case lower_mem =>
    rw [mem_lowers_append]
    rcases hlower with e | hlower
    · rw [e]
      exact .inl h.lower_mem
    · exact .inr hlower
  case le_lower =>
    intro l hl
    rcases mem_lowers_append.1 hl with hl | hl
    · exact le_trans (h.le_lower l hl) hle
    · exact hlower' l hl
  case upper_eq_none =>
    rw [hnone, h.upper_eq_none]
    cases hcu : c.upper <;> simp [uppers, hcu]
  case upper_mem =>
    intro u hu
    rw [mem_uppers_append]
    exact (hupper u hu).1.imp_left (h.upper_mem u)
  case upper_le =>
    intro u hu u' hu'
    obtain ⟨-, hold, hcut⟩ := hupper u hu
    rcases mem_uppers_append.1 hu' with hu' | hu'
    · cases e : merged.upper with
      | none =>
        rw [h.upper_eq_none.1 e] at hu'
        cases hu'
      | some v => exact le_trans (hold v e) (h.upper_le v e u' hu')
    · exact hcut u' hu'

/-- An interval after a list of cuts has the tightest of all bounds. -/
lemma isMeet_cutAll (hi : i.IsDefined) (hcuts : ∀ c ∈ cuts, c.IsDefined) : i.IsMeet cuts (i.cutAll cuts) := by
  induction cuts using List.reverseRecOn with
  | nil => exact .nil hi
  | append_singleton cuts c ih =>
    obtain ⟨hcuts, hc⟩ := List.forall_mem_append.1 hcuts
    have hmeet := (ih hcuts).append (hi.cutAll hcuts) (hc c List.mem_cons_self)
    rwa [cutAll, List.foldl_concat]

/-- Intervals within each other are alike. -/
lemma Inside.alike (h : i.Inside k) (h' : k.Inside i) : i.Alike k := by
  refine ⟨beq_of_le h'.lower h.lower, ?_⟩
  have hupper := h.upper
  have hupper' := h'.upper
  cases e : i.upper with
  | none =>
    cases e' : k.upper with
    | none => rfl
    | some u =>
      obtain ⟨u', hu', -⟩ := hupper u e'
      rw [e] at hu'
      cases hu'
  | some u =>
    obtain ⟨u', hu', hle⟩ := hupper' u e
    obtain ⟨v, hv, hle'⟩ := hupper u' hu'
    obtain rfl := Option.mem_unique hv e
    rw [hu']
    exact beq_of_le hle' hle

/-- An interval around one that is not empty is not empty. -/
lemma Inside.isEmpty_eq_false (h : i.Inside k) (hi : i.IsDefined) (hempty : i.isEmpty = false) :
    k.isEmpty = false := by
  rw [isEmpty_eq_false_iff] at hempty ⊢
  intro u hu
  obtain ⟨u', hu', hle⟩ := h.upper u hu
  have hmiddle : i.lower ≤ u' := le_of_not_lt (hi.upper u' hu') hi.lower (hempty u' hu')
  exact LawfulScalar.not_lt (le_trans h.lower hmiddle) hle

end Interval

namespace Box

variable {base box box' result result' : Box α}

/-- Every interval of a cut box has the tightest bounds that the box and the cuts set for its variable. -/
lemma isMeet_getElem (hbase : base.IsDefined) (hcuts : ∀ c ∈ cuts, c.IsDefined ∧ c.var < base.size)
    (hresult : base.cutAll cuts = .ok result) (j : Nat) (hj : j < base.size) (hj' : j < result.size) :
    base[j].IsMeet (cuts.filter (·.var = j)) result[j] := by
  have hget := getElem?_cutAll (fun c hc => (hcuts c hc).2) hresult j
  rw [Array.getElem?_eq_getElem hj, Array.getElem?_eq_getElem hj', Option.map_some, Option.some.injEq] at hget
  rw [hget]
  exact Interval.isMeet_cutAll (hbase _ (Array.getElem_mem hj)) fun c hc => (hcuts c (List.mem_of_mem_filter hc)).1

/-- Cuts keep the bounds of a box defined. -/
lemma IsDefined.cutAll (hbase : base.IsDefined) (hcuts : ∀ c ∈ cuts, c.IsDefined ∧ c.var < base.size)
    (hresult : base.cutAll cuts = .ok result) : result.IsDefined := by
  intro i hi
  obtain ⟨j, hj⟩ := Array.mem_iff_getElem?.1 hi
  rw [getElem?_cutAll (fun c hc => (hcuts c hc).2) hresult, Option.map_eq_some_iff] at hj
  obtain ⟨i', hi', rfl⟩ := hj
  exact (hbase i' (Array.mem_of_getElem? hi')).cutAll fun c hc => (hcuts c (List.mem_of_mem_filter hc)).1

/-- More cuts leave less of a box. -/
lemma inside_of_subset (hbase : base.IsDefined) (hcuts : ∀ c ∈ cuts', c.IsDefined ∧ c.var < base.size)
    (hsub : cuts ⊆ cuts') (hresult : base.cutAll cuts = .ok result) (hresult' : base.cutAll cuts' = .ok result') :
    result'.Inside result := by
  intro j
  rw [getElem?_cutAll (fun c hc => (hcuts c (hsub hc)).2) hresult,
    getElem?_cutAll (fun c hc => (hcuts c hc).2) hresult']
  cases hi : base[j]? with
  | none => exact .none
  | some i =>
    have hdefined : ∀ c ∈ cuts'.filter (·.var = j), c.IsDefined :=
      fun c hc => (hcuts c (List.mem_of_mem_filter hc)).1
    have hfilter : cuts.filter (·.var = j) ⊆ cuts'.filter (·.var = j) := by
      intro c hc
      rw [List.mem_filter] at hc ⊢
      exact ⟨hsub hc.1, hc.2⟩
    have hi := hbase i (Array.mem_of_getElem? hi)
    refine .some ?_
    exact (Interval.isMeet_cutAll hi fun c hc => hdefined c (hfilter hc)).inside
      (Interval.isMeet_cutAll hi hdefined) hfilter

lemma Inside.alike (h : box.Inside box') (h' : box'.Inside box) : box.Alike box' := by
  intro j
  have hj := h j
  have hj' := h' j
  generalize box[j]? = i at hj hj' ⊢
  generalize box'[j]? = k at hj hj' ⊢
  cases hj with
  | none => exact .none
  | some hin =>
    cases hj' with
    | some hin' => exact .some (hin.alike hin')

/-- A box around one that is not empty is not empty. -/
lemma Inside.isEmpty_eq_false (h : box.Inside box') (hbox : box.IsDefined) (hempty : box.isEmpty = false) :
    box'.isEmpty = false := by
  unfold Box.isEmpty at hempty ⊢
  rw [Array.any_eq_false'] at hempty ⊢
  intro k hk
  obtain ⟨j, hj⟩ := Array.mem_iff_getElem?.1 hk
  have hrel := h j
  rw [hj] at hrel
  generalize hi : box[j]? = i at hrel
  cases hrel with
  | some hin =>
    have hmem := Array.mem_of_getElem? hi
    rw [Bool.not_eq_true]
    exact hin.isEmpty_eq_false (hbox _ hmem) (Bool.eq_false_iff.2 (hempty _ hmem))

end Box

namespace Node

variable {base result : Box α} {node node' : Node α}

/-- Nodes with the same cuts, in whatever order and however often, have boxes that pass for equal. -/
lemma box_alike (hbase : base.IsDefined) (hcuts : ∀ c ∈ node.cuts, c.IsDefined ∧ c.var < base.size)
    (hsame : ∀ c, c ∈ node'.cuts ↔ c ∈ node.cuts) :
    ∃ left left', node.box base = .ok left ∧ node'.box base = .ok left' ∧ Option.Rel Box.Alike left left' := by
  have hcuts' : ∀ c ∈ node'.cuts, c.IsDefined ∧ c.var < base.size := fun c hc => hcuts c ((hsame c).1 hc)
  obtain ⟨result, hresult, -⟩ := Box.exists_cutAll fun c hc => (hcuts c hc).2
  obtain ⟨result', hresult', -⟩ := Box.exists_cutAll fun c hc => (hcuts' c hc).2
  have hin := Box.inside_of_subset hbase hcuts (fun c => (hsame c).1) hresult' hresult
  have hin' := Box.inside_of_subset hbase hcuts' (fun c => (hsame c).2) hresult hresult'
  refine ⟨_, _, box_eq_of_cutAll hresult, box_eq_of_cutAll hresult', ?_⟩
  cases he : result.isEmpty with
  | false =>
    rw [hin.isEmpty_eq_false (hbase.cutAll hcuts hresult) he]
    exact .some (hin.alike hin')
  | true =>
    have he' : result'.isEmpty = true := by
      rw [← Bool.not_eq_false] at he ⊢
      exact fun h => he (hin'.isEmpty_eq_false (hbase.cutAll hcuts' hresult') h)
    rw [he']
    exact .none

/-- A child's box lies within its parent's and differs from it at the variable of the new cut only. -/
lemma box_child {id : Nat} {inner : Box α} (hbase : base.IsDefined)
    (hcuts : ∀ c ∈ node.cuts, c.IsDefined ∧ c.var < base.size) (hc : c.IsDefined) (hvar : c.var < base.size)
    (hresult : base.cutAll node.cuts = .ok result) (hinner : (node.child id c).box base = .ok (some inner)) :
    node.box base = .ok (some result) ∧ inner.Inside result ∧ ∀ j ≠ c.var, inner[j]? = result[j]? := by
  have hcuts' : ∀ c' ∈ (node.child id c).cuts, c'.IsDefined ∧ c'.var < base.size :=
    List.forall_mem_cons.2 ⟨⟨hc, hvar⟩, hcuts⟩
  obtain ⟨inner', hcut, -⟩ := Box.exists_cutAll fun c hc => (hcuts' c hc).2
  rw [box_eq_of_cutAll hcut, Except.ok.injEq] at hinner
  cases he : inner'.isEmpty with
  | true =>
    rw [he] at hinner
    cases hinner
  | false =>
    -- the intervals of the child lie within those of the node, so none of these is empty either
    rw [he] at hinner
    cases hinner
    have hin := Box.inside_of_subset hbase hcuts' (List.subset_cons_self _ _) hresult hcut
    refine ⟨?_, hin, ?_⟩
    · rw [box_eq_of_cutAll hresult, hin.isEmpty_eq_false (hbase.cutAll hcuts' hcut) he]
      rfl
    · intro j hj
      rw [Box.getElem?_cutAll (fun c hc => (hcuts' c hc).2) hcut,
        Box.getElem?_cutAll (fun c hc => (hcuts c hc).2) hresult]
      have hfilter : (node.child id c).cuts.filter (·.var = j) = node.cuts.filter (·.var = j) :=
        List.filter_cons_of_neg (by simpa using hj.symm)
      rw [hfilter]

/-- The box of a node is the intersection of the base and its cuts: every interval has the tightest of the bounds
set for its variable, the points are those of the base that all cuts admit, there is no box exactly if
some interval is empty, order and repetition of the cuts do not matter, and a further cut only shrinks the
interval of its variable. -/
theorem box_merges (base : Box α) (node : Node α) (hbase : base.IsDefined)
    (hcuts : ∀ c ∈ node.cuts, c.IsDefined ∧ c.var < base.size) :
    ∃ merged : Box α,
      (∃ hsize : merged.size = base.size, ∀ j (hj : j < base.size),
        base[j].IsMeet (node.cuts.filter (·.var = j)) merged[j]) ∧
      (∀ z : Vector α base.size, merged.Holds z ↔ base.Holds z ∧ ∀ c ∈ node.cuts, c.AdmitsPoint z) ∧
      (node.box base = .ok none ↔ ∃ i ∈ merged, ∃ u ∈ i.upper, u < i.lower) ∧
      (node.box base = .ok (some merged) ↔ ∀ i ∈ merged, ∀ u ∈ i.upper, ¬ u < i.lower) ∧
      (∀ node' : Node α, (∀ c, c ∈ node'.cuts ↔ c ∈ node.cuts) →
        ∃ left left', node.box base = .ok left ∧ node'.box base = .ok left' ∧
          Option.Rel Box.Alike left left') ∧
      ∀ id c, c.IsDefined → c.var < base.size → ∀ inner, (node.child id c).box base = .ok (some inner) →
        node.box base = .ok (some merged) ∧ inner.Inside merged ∧ ∀ j ≠ c.var, inner[j]? = merged[j]? := by
  obtain ⟨merged, hmerged, hsize⟩ := Box.exists_cutAll fun c hc => (hcuts c hc).2
  have hbox := box_eq_of_cutAll hmerged
  have hempty : merged.isEmpty = true ↔ ∃ i ∈ merged, ∃ u ∈ i.upper, u < i.lower := Box.isEmpty_iff
  refine ⟨merged, ⟨hsize, ?_⟩, Box.holds_cutAll hbase hcuts hmerged, ?_, ?_, ?_, ?_⟩
  · intro j hj
    exact Box.isMeet_getElem hbase hcuts hmerged j hj (hsize ▸ hj)
  · rw [hbox, ← hempty]
    cases merged.isEmpty <;> simp
  · have hnot : (∀ i ∈ merged, ∀ u ∈ i.upper, ¬ u < i.lower) ↔ ¬ merged.isEmpty = true := by
      rw [hempty]
      push Not
      rfl
    rw [hbox, hnot]
    cases merged.isEmpty <;> simp
  · intro node' hsame
    exact box_alike hbase hcuts hsame
  · intro id c hc hvar inner hinner
    exact box_child hbase hcuts hc hvar hmerged hinner

/-- Two cuts at the first variable round their bounds inwards, and a third one is at the other variable. -/
theorem box_merges_nested :
    let base : Box Float := #[.nonneg, .unit]
    let node : Node Float := (root.child 1 (.up 0 1.5)).child 2 (.down 0 4.25)
    let inner : Box Float := #[⟨2, some 4⟩, ⟨0, some 0⟩]
    (base.IsDefined ∧ ∀ c ∈ node.cuts, c.IsDefined ∧ c.var < base.size) ∧
    (node.child 3 (.down 1 0.5)).box base = .ok (some inner) ∧
    ∃ merged : Box Float, node.box base = .ok (some merged) ∧ inner.Inside merged ∧ inner[0]? = merged[0]? := by
  intro base node inner
  have hbase : base.IsDefined := by
    decide +kernel
  have hcuts : ∀ c ∈ node.cuts, c.IsDefined ∧ c.var < base.size := by
    decide +kernel
  have hinner : (node.child 3 (.down 1 0.5)).box base = .ok (some inner) := by
    decide +kernel
  obtain ⟨merged, -, -, -, -, -, hchild⟩ := box_merges base node hbase hcuts
  obtain ⟨hbox, hin, hsame⟩ := hchild 3 (.down 1 0.5) (by decide +kernel) (by decide) inner hinner
  exact ⟨⟨hbase, hcuts⟩, hinner, merged, hbox, hin, hsame 0 (by decide)⟩

end Node

end Ordered

end IntegerProgram
