import Mathlib
import IntegerProgram.Proofs.Binary64.Whole
import IntegerProgram.Proofs.Box
import IntegerProgram.Proofs.BranchBound.Nodes

/-!
# The search tree as a partition of the integer points

Every integer point of a model's box lies in the box of exactly one leaf of the search tree, whatever the
oracle answers and however far the search has come. A leaf is a pending node or one that was closed
without a split.

* `Decision.admits_iff`: the two cuts of a decision admit each integer point exactly once.
* `Model.Reaches.isGrown`: numbers are unique, parents are explored, and cuts are defined.
* `Model.Reaches.countP_leaves`: each integer point is covered once.
* `Model.Reaches.apart`: nodes that are not related share no integer point.
-/

namespace IntegerProgram

variable {σ α : Type} [Scalar α] {m n : Nat}

/-- The cuts of a node leave a point in the box. -/
def Node.Covers (node : Node α) (base : Box α) (z : Vector α n) : Prop :=
  ∃ merged ∈ (base.cutAll node.cuts).toOption, merged.Holds z

instance (node : Node α) (base : Box α) (z : Vector α n) : Decidable (node.Covers base z) :=
  inferInstanceAs (Decidable (∃ merged ∈ (base.cutAll node.cuts).toOption, Box.Holds merged z))

/-- The integer variables of a point are whole. -/
def Model.Integral (model : Model α m n) (z : Vector α n) : Prop :=
  ∀ i ∈ model.integers, Scalar.IsWhole (z.get i)

/-- Two nodes share no integer point of the box. -/
def Model.Apart (model : Model α m n) (a b : Node α) : Prop :=
  ∀ z : Vector α n, model.box.Holds z → model.Integral z →
    ¬ (a.Covers model.box z ∧ b.Covers model.box z)

namespace Tree

/-- The nodes that are pending and those that were closed, that is not branched. -/
def leaves (tree : Tree α) (done : List (Visit α)) : List (Node α) :=
  tree.frontier.pending ++ (done.filter (·.verdict.fate ≠ .branched)).map (·.node)

/-- A node lies above another: it is the parent, the parent's parent and so on. -/
def IsAncestor (tree : Tree α) (done : List (Visit α)) : Node α → Node α → Prop :=
  Relation.TransGen fun parent child =>
    parent ∈ tree.nodes done ∧ child ∈ tree.nodes done ∧ child.parent = some parent.id

/-- What holds of the nodes of a tree at all times: numbers are unique and below the next one, every
parent is explored, and all cuts are defined cuts of variables. -/
structure IsGrown (tree : Tree α) (done : List (Visit α)) (n : Nat) : Prop where
  unique : ((tree.nodes done).map (·.id)).Nodup
  fresh : ∀ node ∈ tree.nodes done, node.id < tree.nextId
  explored : ∀ node ∈ tree.nodes done, ∀ id ∈ node.parent, ∃ visit ∈ done, visit.node.id = id
  defined : ∀ node ∈ tree.nodes done, ∀ c ∈ node.cuts, c.IsDefined ∧ c.var < n

end Tree

/-- A point lies in the box of a model if each value lies between the bounds of its variable. -/
lemma Model.holds_box_iff {model : Model α m n} {z : Vector α n} :
    model.box.Holds z ↔ ∀ j, (model.bounds.get j).Holds (z.get j) := by
  refine forall_congr' fun j => ?_
  have hget : model.box[j.val]? = some (model.bounds.get j) := Array.getElem?_eq_getElem _
  rw [hget]
  simp

/-- Sharing no integer point is mutual. -/
lemma Model.Apart.symm {model : Model α m n} {a b : Node α} (h : model.Apart a b) :
    model.Apart b a := by
  intro z hz hintegral hboth
  exact h z hz hintegral hboth.symm

omit [Scalar α] in
/-- Nodes stay above others when a tree grows. -/
lemma Tree.IsAncestor.mono {tree tree' : Tree α} {done done' : List (Visit α)} {a b : Node α}
    (hsub : tree.nodes done ⊆ tree'.nodes done') (h : tree.IsAncestor done a b) :
    tree'.IsAncestor done' a b := by
  refine Relation.TransGen.mono ?_ _ _ h
  intro parent child hedge
  exact ⟨hsub hedge.1, hsub hedge.2.1, hedge.2.2⟩

/-- Two nodes are the same, or one lies above the other, or they share no integer point. -/
def Model.Separated (model : Model α m n) (tree : Tree α) (done : List (Visit α)) (a b : Node α) : Prop :=
  a = b ∨ tree.IsAncestor done a b ∨ tree.IsAncestor done b a ∨ model.Apart a b

namespace Model.Separated

variable {model : Model α m n} {tree tree' : Tree α} {done done' : List (Visit α)} {a b : Node α}

lemma symm (h : model.Separated tree done a b) : model.Separated tree done b a := by
  rcases h with rfl | habove | hbelow | hapart
  · exact .inl rfl
  · exact .inr (.inr (.inl habove))
  · exact .inr (.inl hbelow)
  · exact .inr (.inr (.inr hapart.symm))

lemma mono (hsub : tree.nodes done ⊆ tree'.nodes done') (h : model.Separated tree done a b) :
    model.Separated tree' done' a b := by
  rcases h with rfl | habove | hbelow | hapart
  · exact .inl rfl
  · exact .inr (.inl (habove.mono hsub))
  · exact .inr (.inr (.inl (hbelow.mono hsub)))
  · exact .inr (.inr (.inr hapart))

end Model.Separated

/-! ## Decisions -/

section Decisions

variable [LawfulScalar α]

/-- The cut below a value admits what is not above the whole number under it. -/
lemma Cut.admits_down {i : Nat} {v w : α} (hw : Scalar.isNaN w = false) :
    (Cut.down i v).admits w = true ↔ w ≤ Scalar.floor v := by
  have hbottom : Scalar.isAbove w none = true := by
    unfold Scalar.isAbove
    rw [Option.all_eq_true]
    intro l hl
    exact decide_eq_true ((LawfulScalar.bottom_le l hl).2 w hw)
  unfold Cut.admits Cut.down
  rw [hbottom, Bool.true_and]
  simp [Scalar.isWithin]

omit [LawfulScalar α] in
/-- The cut above a value admits what is not below the whole number over it. -/
lemma Cut.admits_up {i : Nat} {v w : α} :
    (Cut.up i v).admits w = true ↔ Scalar.ceil v ≤ w := by
  simp [Cut.admits, Cut.up, Scalar.isAbove, Scalar.isWithin]

/-- The two cuts of a decision admit each integer point exactly once. -/
lemma Decision.admits_iff {i : Fin n} {v tol : α} {z : Vector α n} (htol : 0 ≤ tol)
    (hoff : tol < Scalar.fractionality v) (hwhole : Scalar.IsWhole (z.get i))
    (hdefined : Scalar.isNaN (z.get i) = false) :
    (Decision.split i.val v).down.AdmitsPoint z ↔
      ¬ (Decision.split i.val v).up.AdmitsPoint z := by
  have hpoint : ∀ c : Cut α, c.var = i.val → (c.AdmitsPoint z ↔ c.admits (z.get i) = true) := by
    intro c hc
    constructor
    · intro h
      exact h i hc.symm
    · intro h j hj
      rw [hc] at hj
      rw [Fin.ext hj]
      exact h
  rw [hpoint (Decision.split i.val v).down rfl, hpoint (Decision.split i.val v).up rfl]
  show (Cut.down i.val v).admits _ = true ↔ ¬ (Cut.up i.val v).admits _ = true
  rw [Cut.admits_down hdefined, Cut.admits_up]
  exact LawfulScalar.le_floor_iff htol hoff hwhole

/-- The two cuts of a decision are defined. -/
lemma Decision.isDefined {i : Nat} {v tol : α} (htol : 0 ≤ tol)
    (hoff : tol < Scalar.fractionality v) :
    (Decision.split i v).down.IsDefined ∧ (Decision.split i v).up.IsDefined := by
  obtain ⟨hfloor, hceil⟩ := LawfulScalar.defined_floor_ceil htol hoff
  constructor
  · constructor
    · intro l hl
      cases hl
    · intro u hu
      cases hu
      exact hfloor
  · constructor
    · intro l hl
      cases hl
      exact hceil
    · intro u hu
      cases hu

end Decisions

/-! ## The nodes of a tree -/

namespace Tree

variable {tree rest : Tree α} {done : List (Visit α)} {node : Node α} {visit : Visit α}

/-- After a visit the leaves are those from before, with the children in place of a split node. -/
lemma leaves_after (popped : tree.Pops node rest) (hnode : visit.node = node)
    (htree : visit.tree = rest) (covers : Node α → Bool)
    (hsplit : visit.verdict.fate = .branched →
      (visit.verdict.children node tree.nextId).countP covers = [node].countP covers) :
    (visit.after.leaves (visit :: done)).countP covers = (tree.leaves done).countP covers := by
  subst hnode htree
  unfold leaves Visit.after
  rw [pending_settle, popped.nextId, popped.pending]
  by_cases hfate : visit.verdict.fate = .branched
  · rw [List.filter_cons_of_neg (by simp [hfate])]
    have hcount := hsplit hfate
    simp only [List.countP_append, List.countP_cons, List.countP_nil] at hcount ⊢
    omega
  · rw [List.filter_cons_of_pos (by simp [hfate])]
    -- a node that is closed leaves no children and becomes a closed leaf itself
    have hnone : visit.verdict.children visit.node tree.nextId = [] := by
      cases hverdict : visit.verdict with
      | split d =>
        rw [hverdict] at hfate
        exact absurd rfl hfate
      | _ => rfl
    rw [hnone]
    simp only [List.map_cons, List.countP_append, List.countP_cons, List.countP_nil]
    omega

end Tree

/-- The node that is taken is above no other. -/
lemma Tree.IsGrown.not_isAncestor {tree rest : Tree α} {done : List (Visit α)} {node : Node α}
    (grown : tree.IsGrown done n)
    (popped : tree.Pops node rest) (b : Node α) : ¬ tree.IsAncestor done node b := by
  intro h
  obtain ⟨child, ⟨-, hchild, hparent⟩, -⟩ := Relation.TransGen.head'_iff.1 h
  obtain ⟨visit, hvisit, hid⟩ := grown.explored child hchild node.id hparent
  have hunique := grown.unique
  unfold Tree.nodes at hunique
  rw [popped.pending, List.cons_append, List.map_cons, List.nodup_cons] at hunique
  apply hunique.1
  rw [← hid]
  exact List.mem_map_of_mem (List.mem_append_right _ (List.mem_map_of_mem hvisit))

/-! ## Integer points -/

section Points

variable [LawfulScalar α] {model : Model α m n} {settings : Settings α} {oracle : Oracle σ α}
  {node : Node α} {tree rest : Tree α} {state state' : σ} {visit : Visit α} {z : Vector α n}

omit [LawfulScalar α] in
/-- The cuts of a node leave an interval for every variable. -/
lemma Model.exists_merged (model : Model α m n)
    (hcuts : ∀ c ∈ node.cuts, c.IsDefined ∧ c.var < n) :
    ∃ merged : Vector (Interval α) n, model.box.cutAll node.cuts = .ok merged.toArray := by
  have hsize : model.box.size = n := model.bounds.size_toArray
  have hvars : ∀ c ∈ node.cuts, c.var < model.box.size := by
    intro c hc
    rw [hsize]
    exact (hcuts c hc).2
  obtain ⟨merged, hmerged, hsize'⟩ := Box.exists_cutAll hvars
  exact ⟨⟨merged, hsize'.trans hsize⟩, hmerged⟩

/-- A node covers the points of the box that all its cuts admit. -/
lemma Node.covers_iff (hz : model.box.Holds z) (hcuts : ∀ c ∈ node.cuts, c.IsDefined ∧ c.var < n) :
    node.Covers model.box z ↔ ∀ c ∈ node.cuts, c.AdmitsPoint z := by
  have hsize : model.box.size = n := model.bounds.size_toArray
  obtain ⟨merged, hmerged⟩ := model.exists_merged hcuts
  have hholds := Box.holds_cutAll (hz.isDefined hsize)
    (fun c hc => ⟨(hcuts c hc).1, hsize.symm ▸ (hcuts c hc).2⟩) hmerged z
  unfold Node.Covers
  rw [hmerged]
  simp only [Except.toOption, Option.mem_some_iff, exists_eq_left', hholds, hz, true_and]

/-- A child covers the points of its parent that its cut admits. -/
lemma Node.covers_child (hz : model.box.Holds z)
    (hcuts : ∀ c ∈ node.cuts, c.IsDefined ∧ c.var < n) {c : Cut α} {id : Nat} (hc : c.IsDefined)
    (hvar : c.var < n) :
    (node.child id c).Covers model.box z ↔ node.Covers model.box z ∧ c.AdmitsPoint z := by
  have hchild : ∀ c' ∈ (node.child id c).cuts, c'.IsDefined ∧ c'.var < n := by
    intro c' hc'
    rcases List.mem_cons.1 hc' with rfl | hc'
    · exact ⟨hc, hvar⟩
    · exact hcuts c' hc'
  rw [Node.covers_iff hz hcuts, Node.covers_iff hz hchild]
  show (∀ c' ∈ c :: node.cuts, _) ↔ _
  rw [List.forall_mem_cons, and_comm]

namespace Model

/-- A node without a box covers no point. -/
lemma not_covers_of_void (hcuts : ∀ c ∈ node.cuts, c.IsDefined ∧ c.var < n)
    (void : node.box model.box = .ok none) : ¬ node.Covers model.box z := by
  obtain ⟨merged, hmerged⟩ := model.exists_merged hcuts
  rintro ⟨merged', hmem, hholds⟩
  rw [hmerged] at hmem
  cases hmem
  unfold Node.box at void
  rw [hmerged] at void
  have hempty := hholds.not_isEmpty merged.size_toArray
  simp [hempty, bind, Except.bind, pure, Except.pure] at void

/-- A point of the box asked about is a point of the model's box that the cuts of the node admit. -/
lemma admits_of_box {box : Box α} {x : Vector α n} (left : node.box model.box = .ok (some box))
    (hcuts : ∀ c ∈ node.cuts, c.IsDefined ∧ c.var < n)
    (hdefined : node.cuts = [] ∨ model.box.IsDefined) (h : box.Holds x) :
    model.box.Holds x ∧ ∀ c ∈ node.cuts, c.AdmitsPoint x := by
  have hmerged := cutAll_of_box left
  rcases hdefined with hnone | hdefined
  · rw [hnone] at hmerged ⊢
    cases hmerged
    exact ⟨h, nofun⟩
  · have hsize : model.box.size = n := model.bounds.size_toArray
    refine (Box.holds_cutAll hdefined ?_ hmerged x).1 h
    rw [hsize]
    exact hcuts

/-- A visit leaves no children, or two children that divide the integer points of the node. -/
lemma Visited.divides (visited : model.Visited settings oracle node rest state visit state')
    (htol : 0 ≤ settings.integralityTol) (hcuts : ∀ c ∈ node.cuts, c.IsDefined ∧ c.var < n)
    (nextId : Nat) :
    visit.verdict.children node nextId = [] ∨
    ∃ up down, visit.verdict.children node nextId = [up, down] ∧ model.Apart up down ∧
      ∀ z : Vector α n, model.box.Holds z → model.Integral z →
        (node.Covers model.box z ↔ up.Covers model.box z ∨ down.Covers model.box z) := by
  rcases visited.children_cases nextId with hnone | ⟨i, hi, v, hoff, htwo⟩
  · exact .inl hnone
  · -- of the two cuts of the split each integer point is admitted by one
    have hsides : ∀ z : Vector α n, model.box.Holds z → model.Integral z →
        ((Cut.down i.val v).AdmitsPoint z ↔ ¬ (Cut.up i.val v).AdmitsPoint z) := by
      intro z hz hintegral
      obtain ⟨interval, -, hin⟩ := hz i
      exact Decision.admits_iff htol hoff (hintegral i hi) (LawfulScalar.defined_of_le hin.1).2
    obtain ⟨hdown, hup⟩ := Decision.isDefined (i := i.val) htol hoff
    refine .inr ⟨_, _, htwo, ?_, ?_⟩
    · rintro z hz hintegral ⟨hcoversUp, hcoversDown⟩
      have hadmitsUp := ((Node.covers_child hz hcuts hup i.isLt).1 hcoversUp).2
      have hadmitsDown := ((Node.covers_child hz hcuts hdown i.isLt).1 hcoversDown).2
      exact (hsides z hz hintegral).1 hadmitsDown hadmitsUp
    · intro z hz hintegral
      have hcoversUp : (node.child (nextId + 1) (.up i v)).Covers model.box z ↔ _ :=
        Node.covers_child hz hcuts hup i.isLt
      have hcoversDown : (node.child nextId (.down i v)).Covers model.box z ↔ _ :=
        Node.covers_child hz hcuts hdown i.isLt
      rw [hcoversUp, hcoversDown, ← and_or_left]
      constructor
      · intro hnode
        refine ⟨hnode, ?_⟩
        by_cases hside : (Cut.up i.val v).AdmitsPoint z
        · exact .inl hside
        · exact .inr ((hsides z hz hintegral).2 hside)
      · exact And.left

/-- The children of a split node cover its integer points once. -/
lemma Visited.countP_children (visited : model.Visited settings oracle node rest state visit state')
    (htol : 0 ≤ settings.integralityTol) (hcuts : ∀ c ∈ node.cuts, c.IsDefined ∧ c.var < n)
    (hz : model.box.Holds z) (hintegral : model.Integral z) (nextId : Nat)
    (hfate : visit.verdict.fate = .branched) :
    (visit.verdict.children node nextId).countP (·.Covers model.box z) =
      [node].countP (·.Covers model.box z) := by
  rcases visited.divides htol hcuts nextId with hnone | ⟨up, down, htwo, hapart, hcovers⟩
  · cases hverdict : visit.verdict with
    | split d =>
      rw [hverdict] at hnone
      cases hnone
    | _ =>
      rw [hverdict] at hfate
      cases hfate
  · have hapart := hapart z hz hintegral
    rw [htwo]
    simp only [List.countP_cons, List.countP_nil, decide_eq_true_eq, hcovers z hz hintegral]
    by_cases hup : up.Covers model.box z
    · have hdown : ¬ down.Covers model.box z := fun hdown => hapart ⟨hup, hdown⟩
      simp [hup, hdown]
    · simp [hup]

/-- The children of a split node share no integer point. -/
lemma Visited.apart_children
    (visited : model.Visited settings oracle node rest state visit state')
    (htol : 0 ≤ settings.integralityTol) (hcuts : ∀ c ∈ node.cuts, c.IsDefined ∧ c.var < n)
    (nextId : Nat) :
    ∀ a ∈ visit.verdict.children node nextId, ∀ b ∈ visit.verdict.children node nextId,
      a = b ∨ model.Apart a b := by
  rcases visited.divides htol hcuts nextId with hnone | ⟨up, down, htwo, hapart, -⟩
  · rw [hnone]
    nofun
  · rw [htwo]
    intro a ha b hb
    rcases List.mem_pair.1 ha with rfl | rfl
    · rcases List.mem_pair.1 hb with rfl | rfl
      · exact .inl rfl
      · exact .inr hapart
    · rcases List.mem_pair.1 hb with rfl | rfl
      · exact .inr hapart.symm
      · exact .inl rfl

/-- The integer points of a child are points of its parent. -/
lemma Visited.covers_of_child
    (visited : model.Visited settings oracle node rest state visit state')
    (htol : 0 ≤ settings.integralityTol) (hcuts : ∀ c ∈ node.cuts, c.IsDefined ∧ c.var < n)
    (hz : model.box.Holds z) (hintegral : model.Integral z) (nextId : Nat) {child : Node α}
    (hchild : child ∈ visit.verdict.children node nextId) (h : child.Covers model.box z) :
    node.Covers model.box z := by
  rcases visited.divides htol hcuts nextId with hnone | ⟨up, down, htwo, -, hcovers⟩
  · rw [hnone] at hchild
    cases hchild
  · rw [htwo] at hchild
    rw [hcovers z hz hintegral]
    rcases List.mem_pair.1 hchild with rfl | rfl
    · exact .inl h
    · exact .inr h

variable {initial : σ} {done : List (Visit α)}

/-- What holds of the nodes of a tree holds of every tree that a search comes to. -/
lemma Reaches.isGrown (htol : 0 ≤ settings.integralityTol)
    (reached : model.Reaches settings oracle initial tree state done) : tree.IsGrown done n := by
  have numbered := reached.isNumbered
  constructor
  · exact numbered.ids.nodup_iff.2 List.nodup_range
  · exact fun node hnode => numbered.id_lt hnode
  · intro node hnode id hid
    rcases numbered.family node hnode with rfl | ⟨visit, hvisit, -, hchild⟩
    · cases hid
    · rw [hchild.named] at hid
      exact ⟨visit, hvisit, Option.some.inj hid⟩
  · refine reached.forall_cuts ?_
    intro i _ v hoff
    obtain ⟨hdown, hup⟩ := Decision.isDefined (i := i.val) htol hoff
    exact ⟨⟨hup, i.isLt⟩, ⟨hdown, i.isLt⟩⟩

/-- Each integer point of the box is covered by one leaf. -/
lemma Reaches.countP_leaves (htol : 0 ≤ settings.integralityTol)
    (reached : model.Reaches settings oracle initial tree state done) (hz : model.box.Holds z)
    (hintegral : model.Integral z) :
    (tree.leaves done).countP (·.Covers model.box z) = 1 := by
  induction reached with
  | start =>
    have hroot : (Node.root : Node α).Covers model.box z := by
      rw [Node.covers_iff hz]
      · nofun
      · nofun
    show [Node.root].countP _ = 1
    rw [List.countP_singleton, decide_eq_true hroot]
    rfl
  | step reached popped visited ih =>
    have popped := Tree.pops_of_pop popped
    have visited := visited_of_visit visited
    rw [← ih]
    apply Tree.leaves_after popped visited.node_eq visited.tree_eq
    exact visited.countP_children htol ((reached.isGrown htol).defined _ popped.mem) hz hintegral _

/-- A node whose box is empty covers no point. -/
lemma Reaches.not_covers_emptyDomain (htol : 0 ≤ settings.integralityTol)
    (reached : model.Reaches settings oracle initial tree state done) :
    ∀ visit ∈ done, visit.verdict.fate = .emptyDomain → ¬ visit.node.Covers model.box z := by
  intro visit hvisit hfate
  obtain ⟨_, _, _, _, -, -, visited⟩ := reached.exists_step visit hvisit
  have hcuts := (reached.isGrown htol).defined visit.node (Tree.mem_nodes_of_visit hvisit)
  exact not_covers_of_void hcuts ((visited_of_visit visited).void hfate)

/-- A new child and a node from before: what is above the parent is above the child, nothing is below the
parent, and the points of the child are points of the parent. -/
lemma Visited.separated_child
    (visited : model.Visited settings oracle node rest state visit state')
    (htol : 0 ≤ settings.integralityTol) (popped : tree.Pops node rest) (grown : tree.IsGrown done n)
    (hsub : tree.nodes done ⊆ visit.after.nodes (visit :: done)) {child b : Node α}
    (hchild : child ∈ visit.verdict.children node tree.nextId)
    (hnew : child ∈ visit.after.nodes (visit :: done)) (h : model.Separated tree done node b) :
    model.Separated visit.after (visit :: done) child b := by
  have hedge : node ∈ visit.after.nodes (visit :: done) ∧
      child ∈ visit.after.nodes (visit :: done) ∧ child.parent = some node.id :=
    ⟨hsub popped.mem, hnew, Verdict.parent_children hchild⟩
  rcases h with rfl | habove | hbelow | hapart
  · exact .inr (.inr (.inl (.single hedge)))
  · exact absurd habove (grown.not_isAncestor popped b)
  · exact .inr (.inr (.inl ((hbelow.mono hsub).tail hedge)))
  · refine .inr (.inr (.inr fun z hz hintegral hboth => hapart z hz hintegral ⟨?_, hboth.2⟩))
    exact visited.covers_of_child htol (grown.defined node popped.mem) hz hintegral tree.nextId
      hchild hboth.1

/-- Different nodes of which neither is above the other share no integer point. -/
lemma Reaches.apart (htol : 0 ≤ settings.integralityTol)
    (reached : model.Reaches settings oracle initial tree state done) :
    ∀ a ∈ tree.nodes done, ∀ b ∈ tree.nodes done, model.Separated tree done a b := by
  induction reached with
  | start =>
    intro a ha b hb
    exact .inl ((List.mem_singleton.1 ha).trans (List.mem_singleton.1 hb).symm)
  | @step tree rest state state' done node visit reached popped visited ih =>
    have grown := reached.isGrown htol
    have popped := Tree.pops_of_pop popped
    have visited := visited_of_visit visited
    have hperm := Tree.nodes_after done popped visited.node_eq visited.tree_eq
    have hsub : tree.nodes done ⊆ visit.after.nodes (visit :: done) := by
      intro a ha
      exact hperm.mem_iff.2 (List.mem_append_right _ ha)
    have hnew : ∀ child ∈ visit.verdict.children node tree.nextId, ∀ b ∈ tree.nodes done,
        model.Separated visit.after (visit :: done) child b := by
      intro child hchild b hb
      exact visited.separated_child htol popped grown hsub hchild
        (hperm.mem_iff.2 (List.mem_append_left _ hchild)) (ih node popped.mem b hb)
    intro a ha b hb
    rcases List.mem_append.1 (hperm.mem_iff.1 ha) with ha | ha
    · rcases List.mem_append.1 (hperm.mem_iff.1 hb) with hb | hb
      · rcases visited.apart_children htol (grown.defined node popped.mem) _ a ha b hb with h | h
        · exact .inl h
        · exact .inr (.inr (.inr h))
      · exact hnew a ha b hb
    · rcases List.mem_append.1 (hperm.mem_iff.1 hb) with hb | hb
      · exact (hnew b hb a ha).symm
      · exact (ih a ha b hb).mono hsub

/-- The leaves of the search tree partition the integer points of the box, at all times and whatever the
oracle answers: every integer point is covered by exactly one leaf, which is no node of an empty box, and
different nodes of which neither is above the other share no integer point. -/
theorem leaves_partition (htol : 0 ≤ settings.integralityTol)
    (reached : model.Reaches settings oracle initial tree state done) :
    (∀ z : Vector α n, model.box.Holds z → model.Integral z →
      (tree.leaves done).countP (·.Covers model.box z) = 1 ∧
      ∀ visit ∈ done, visit.verdict.fate = .emptyDomain → ¬ visit.node.Covers model.box z) ∧
    ∀ a ∈ tree.nodes done, ∀ b ∈ tree.nodes done, a ≠ b → ¬ tree.IsAncestor done a b →
      ¬ tree.IsAncestor done b a → ∀ z : Vector α n, model.box.Holds z → model.Integral z →
        ¬ (a.Covers model.box z ∧ b.Covers model.box z) := by
  constructor
  · intro z hz hintegral
    exact ⟨reached.countP_leaves htol hz hintegral, reached.not_covers_emptyDomain htol⟩
  · intro a ha b hb hne hab hba
    rcases reached.apart htol a ha b hb with h | h | h | h
    · exact absurd h hne
    · exact absurd h hab
    · exact absurd h hba
    · exact h

/-- One integer variable from one half on, in rounded numbers. -/
def fromHalf : Model Float 0 1 where
  matrix := .ofRows #v[]
  target := #v[]
  cost := #v[1]
  bounds := #v[.atLeast 0.5]
  integers := List.finRange 1
  ascending := List.pairwise_lt_finRange 1

/-- The oracle that answers one half about every box, whether or not that lies in the box. -/
def stubborn : Oracle Unit Float := fun _ state =>
  (⟨.ok (.optimal 0.5 #[0.5]), []⟩, state)

/-- A search that is led astray still has each integer point in one leaf: its oracle answers one half over
and over, and after seven visits the three is covered once. -/
theorem leaves_partition_stubborn : ∃ tree state done,
    fromHalf.Reaches (Settings.standard.withMaxNodes 7) stubborn () tree state done ∧
    done.length = 7 ∧ fromHalf.box.Holds #v[3] ∧ fromHalf.Integral #v[3] ∧
    (tree.leaves done).countP (·.Covers fromHalf.box #v[3]) = 1 := by
  obtain ⟨tree, state, done, reached, hvisits⟩ :=
    fromHalf.exists_reaches (Settings.standard.withMaxNodes 7) id stubborn ()
  have hlength : done.length = 7 := by
    rw [← List.length_reverse, ← hvisits]
    decide +kernel
  have hbox : fromHalf.box.Holds #v[3] := by decide +kernel
  have hintegral : fromHalf.Integral #v[3] := by
    unfold Integral Scalar.IsWhole
    decide +kernel
  have hcount := ((leaves_partition (by decide +kernel) reached).1 _ hbox hintegral).1
  exact ⟨tree, state, done, reached, hlength, hbox, hintegral, hcount⟩

end Model

end Points

end IntegerProgram
