import Mathlib
import IntegerProgram.Proofs.BranchBound.Runs

/-!
# The nodes of a search tree

Which nodes a search has created, how they are numbered and whose children they are, for every number
system, every model, every settings and every oracle.

* `Tree.Turns` says what one round of the search does to each part of the tree, and
  `Model.turns_of_visit` that every visit does so. What every round keeps holds of all trees to which a
  search can come (`Model.Reaches.turns_induction`).
* `Tree.IsNumbered`: numbers are given out in order, and every node but the root is the child of a node that
  was branched.
* `Model.Reaches.nodes_induction`: what passes from the visited nodes to their children holds of all nodes;
  `Model.Reaches.forall_cuts`: what holds of both cuts of every split holds of all cuts.
-/

namespace IntegerProgram

variable {σ α : Type} {m n : Nat}

namespace Tree

/-- The nodes created so far: the pending and the explored ones. -/
def nodes (tree : Tree α) (done : List (Visit α)) : List (Node α) :=
  tree.frontier.pending ++ done.map (·.node)

variable {tree rest : Tree α} {done : List (Visit α)} {node : Node α} {visit : Visit α}

/-- The node that is taken is one of the nodes. -/
lemma Pops.mem (popped : tree.Pops node rest) : node ∈ tree.nodes done := by
  unfold nodes
  rw [popped.pending]
  exact List.mem_append_left _ List.mem_cons_self

/-- The nodes that were visited are among the nodes. -/
lemma mem_nodes_of_visit (hvisit : visit ∈ done) : visit.node ∈ tree.nodes done :=
  List.mem_append_right _ (List.mem_map_of_mem hvisit)

/-- After a visit there are the children of the node and the nodes from before. -/
lemma nodes_after [Scalar α] (done : List (Visit α)) (popped : tree.Pops node rest)
    (hnode : visit.node = node) (htree : visit.tree = rest) :
    (visit.after.nodes (visit :: done)).Perm
      (visit.verdict.children node tree.nextId ++ tree.nodes done) := by
  subst hnode htree
  unfold nodes Visit.after
  rw [pending_settle, popped.nextId, popped.pending, List.map_cons, List.append_assoc]
  exact List.Perm.append_left _ List.perm_middle

end Tree

/-! ## Rounds -/

/-- What one round of a search does to a tree: the latest node leaves it, its children come in, and its fate
is counted. -/
structure Tree.Turns (tree : Tree α) (visit : Visit α) (next : Tree α) : Prop where
  pending : ∃ rest, tree.frontier.pending = visit.node :: rest ∧
    next.frontier.pending = visit.verdict.children visit.node tree.nextId ++ rest
  nodes : ∀ done, (next.nodes (visit :: done)).Perm
    (visit.verdict.children visit.node tree.nextId ++ tree.nodes done)
  nextId : next.nextId = tree.nextId + (visit.verdict.children visit.node tree.nextId).length
  added : next.frontier.added =
    tree.frontier.added + (visit.verdict.children visit.node tree.nextId).length
  popped : next.frontier.popped = tree.frontier.popped + 1
  peak : next.frontier.peak ≤ max tree.frontier.peak next.frontier.size
  tally : next.tally = tree.tally.count visit.verdict.fate

lemma Tree.Turns.mem {tree next : Tree α} {visit : Visit α} {done : List (Visit α)}
    (turns : tree.Turns visit next) : visit.node ∈ tree.nodes done := by
  obtain ⟨rest, hpending, -⟩ := turns.pending
  unfold Tree.nodes
  rw [hpending]
  exact List.mem_append_left _ List.mem_cons_self

section Turns

variable [Scalar α] {model : Model α m n} {settings : Settings α} {oracle : Oracle σ α}
  {node : Node α} {tree rest : Tree α} {initial state state' : σ} {visit : Visit α}
  {done : List (Visit α)}

lemma Tree.turns_settle (popped : tree.pop? = some (node, rest)) (verdict : Verdict α)
    (asked : Option (Box α × Reply α)) :
    tree.Turns ⟨node, rest, asked, verdict⟩ (rest.settle node verdict) := by
  have hvisit : (⟨node, rest, asked, verdict⟩ : Visit α).node = node := rfl
  have hnodes := fun done => nodes_after done (pops_of_pop popped) hvisit rfl
  obtain ⟨⟨pending, added, count, peak⟩, incumbent, nextId, tally⟩ := tree
  cases pending with
  | nil => cases popped
  | cons first others =>
    cases popped
    cases verdict with
    | split d =>
      refine ⟨⟨others, rfl, rfl⟩, hnodes, rfl, rfl, rfl, ?_, rfl⟩
      -- the peak is taken after either push, and the second frontier is the larger one
      show max (max peak (others.length + 1)) (others.length + 1 + 1) ≤ max peak (others.length + 2)
      omega
    | _ => exact ⟨⟨others, rfl, rfl⟩, hnodes, rfl, rfl, rfl, le_max_left _ _, rfl⟩

namespace Model

lemma turns_of_visit (popped : tree.pop? = some (node, rest))
    (visited : model.visit settings oracle node rest state = (.ok visit, state')) :
    tree.Turns visit visit.after := by
  cases visited_of_visit visited with
  | emptyDomain => exact Tree.turns_settle popped _ _
  | asked => exact Tree.turns_settle popped _ _

/-- What holds at the start and is kept by every round holds of all trees to which a search can come. -/
@[elab_as_elim]
lemma Reaches.turns_induction {P : Tree α → List (Visit α) → Prop}
    (reached : model.Reaches settings oracle initial tree state done) (start : P .start [])
    (turns : ∀ {tree next visit done}, tree.Turns visit next → P tree done → P next (visit :: done)) :
    P tree done := by
  induction reached with
  | start => exact start
  | step _ popped visited ih => exact turns (turns_of_visit popped visited) ih

/-- What holds of the root and passes from the visited nodes to their children holds of all nodes. -/
lemma Reaches.nodes_induction {P : Node α → Prop}
    (reached : model.Reaches settings oracle initial tree state done) (root : P .root)
    (children : ∀ visit ∈ done, P visit.node → ∀ nextId,
      ∀ child ∈ visit.verdict.children visit.node nextId, P child) :
    ∀ node ∈ tree.nodes done, P node := by
  induction reached with
  | start =>
    intro a ha
    rw [List.mem_singleton.1 ha]
    exact root
  | step _ popped visited ih =>
    have turns := turns_of_visit popped visited
    obtain ⟨hvisit, hdone⟩ := List.forall_mem_cons.1 children
    have ih := ih hdone
    intro a ha
    -- a node is a child of the latest visit or from before
    rcases List.mem_append.1 ((turns.nodes _).mem_iff.1 ha) with ha | ha
    · exact hvisit (ih _ turns.mem) _ a ha
    · exact ih a ha

end Model

end Turns

/-! ## Children -/

lemma Verdict.length_children (verdict : Verdict α) (node : Node α) (nextId : Nat) :
    (verdict.children node nextId).length = if verdict.fate = .branched then 2 else 0 := by
  cases verdict <;> rfl

/-- A child of a node: numbered later, one level deeper, with one more cut. -/
structure Node.IsChildOf (child parent : Node α) : Prop where
  named : child.parent = some parent.id
  later : parent.id < child.id
  depth : child.depth = parent.depth + 1
  length : child.depth = child.cuts.length
  cuts : child.cuts.tail = parent.cuts

lemma Verdict.parent_children {verdict : Verdict α} {node child : Node α} {nextId : Nat}
    (hchild : child ∈ verdict.children node nextId) : child.parent = some node.id := by
  cases verdict with
  | split d => rcases List.mem_pair.1 hchild with rfl | rfl <;> rfl
  | _ => cases hchild

/-- Only a split leaves children, and they are children of the node. -/
lemma Verdict.isChildOf {verdict : Verdict α} {node child : Node α} {nextId : Nat}
    (hchild : child ∈ verdict.children node nextId) (hlength : node.depth = node.cuts.length)
    (hid : node.id < nextId) : verdict.fate = .branched ∧ child.IsChildOf node := by
  cases verdict with
  | split d =>
    have hdeeper : node.depth + 1 = node.cuts.length + 1 := congrArg (· + 1) hlength
    rcases List.mem_pair.1 hchild with rfl | rfl
    · exact ⟨rfl, rfl, Nat.lt_succ_of_lt hid, rfl, hdeeper, rfl⟩
    · exact ⟨rfl, rfl, hid, rfl, hdeeper, rfl⟩
  | _ => cases hchild

/-- The children of a verdict get the numbers that come next. -/
lemma Verdict.perm_ids (verdict : Verdict α) (node : Node α) (nextId : Nat) :
    ((verdict.children node nextId).map (·.id) ++ List.range nextId).Perm
      (List.range (nextId + (verdict.children node nextId).length)) := by
  cases verdict with
  | split d =>
    have hrange : List.range (nextId + 2) = List.range nextId ++ [nextId, nextId + 1] := by
      rw [List.range_succ, List.range_succ, List.append_assoc]
      rfl
    show ([nextId + 1, nextId] ++ List.range nextId).Perm (List.range (nextId + 2))
    rw [hrange]
    -- the upper child comes first and has the higher number
    exact List.perm_append_comm.trans ((List.Perm.swap _ _ []).append_left _)
  | _ => exact List.Perm.refl _

namespace Model.Visited

variable [Scalar α] {model : Model α m n} {settings : Settings α} {oracle : Oracle σ α}
  {node : Node α} {tree : Tree α} {state state' : σ} {visit : Visit α}

/-- A visit leaves no children, or the two children of a split at an integer variable. -/
lemma children_cases (h : model.Visited settings oracle node tree state visit state')
    (nextId : Nat) :
    visit.verdict.children node nextId = [] ∨
    ∃ i ∈ model.integers, ∃ v, settings.integralityTol < Scalar.fractionality v ∧
      visit.verdict.children node nextId =
        [node.child (nextId + 1) (.up i v), node.child nextId (.down i v)] := by
  cases h with
  | emptyDomain => exact .inl rfl
  | asked _ _ _ judged =>
    cases judged with
    | split _ chosen =>
      obtain ⟨i, hi, hoff, rfl⟩ := BranchingRule.select_some chosen
      exact .inr ⟨i, hi, _, hoff, rfl⟩
    | _ => exact .inl rfl

end Model.Visited

/-! ## Numbers -/

/-- The numbers of all nodes are those given out, each once. Every node but the root is the child of a node
that was branched. -/
structure Tree.IsNumbered (tree : Tree α) (done : List (Visit α)) : Prop where
  ids : ((tree.nodes done).map (·.id)).Perm (List.range tree.nextId)
  length : ∀ node ∈ tree.nodes done, node.depth = node.cuts.length
  family : ∀ node ∈ tree.nodes done, node = .root ∨
    ∃ visit ∈ done, visit.verdict.fate = .branched ∧ node.IsChildOf visit.node

lemma Tree.isNumbered_start : (start : Tree α).IsNumbered [] := by
  refine ⟨List.Perm.refl _, ?_, ?_⟩
  · intro node hnode
    cases List.mem_singleton.1 hnode
    rfl
  · intro node hnode
    exact .inl (List.mem_singleton.1 hnode)

namespace Tree.IsNumbered

variable {tree next : Tree α} {visit : Visit α} {done : List (Visit α)} {node : Node α}

lemma id_lt (h : tree.IsNumbered done) (hnode : node ∈ tree.nodes done) : node.id < tree.nextId :=
  List.mem_range.1 (h.ids.mem_iff.1 (List.mem_map_of_mem hnode))

lemma turns (h : tree.IsNumbered done) (turns : tree.Turns visit next) :
    next.IsNumbered (visit :: done) := by
  have hperm := turns.nodes done
  have hcases : ∀ node ∈ next.nodes (visit :: done),
      (visit.verdict.fate = .branched ∧ node.IsChildOf visit.node) ∨ node ∈ tree.nodes done := by
    intro node hnode
    rcases List.mem_append.1 (hperm.mem_iff.1 hnode) with hnode | hnode
    · exact .inl (Verdict.isChildOf hnode (h.length _ turns.mem) (h.id_lt turns.mem))
    · exact .inr hnode
  refine ⟨?_, ?_, ?_⟩
  · have hids := hperm.map (·.id)
    rw [List.map_append] at hids
    rw [turns.nextId]
    exact (hids.trans (h.ids.append_left _)).trans (visit.verdict.perm_ids _ _)
  · intro node hnode
    rcases hcases node hnode with ⟨-, hchild⟩ | hnode
    · exact hchild.length
    · exact h.length node hnode
  · intro node hnode
    rcases hcases node hnode with hchild | hnode
    · exact .inr ⟨visit, List.mem_cons_self, hchild⟩
    · rcases h.family node hnode with hroot | ⟨v, hv, hchild⟩
      · exact .inl hroot
      · exact .inr ⟨v, List.mem_cons_of_mem _ hv, hchild⟩

end Tree.IsNumbered

/-! ## Whole searches -/

namespace Model

variable [Scalar α] {model : Model α m n} {settings : Settings α} {oracle : Oracle σ α}
  {tree : Tree α} {initial state : σ} {done : List (Visit α)}

lemma Reaches.isNumbered (reached : model.Reaches settings oracle initial tree state done) :
    tree.IsNumbered done :=
  reached.turns_induction Tree.isNumbered_start fun turns h => h.turns turns

/-- What holds of both cuts of every split holds of all cuts of the nodes. -/
lemma Reaches.forall_cuts {P : Cut α → Prop}
    (reached : model.Reaches settings oracle initial tree state done)
    (split : ∀ i ∈ model.integers, ∀ v, settings.integralityTol < Scalar.fractionality v →
      P (.up i v) ∧ P (.down i v)) :
    ∀ node ∈ tree.nodes done, ∀ c ∈ node.cuts, P c := by
  refine reached.nodes_induction ?_ ?_
  · nofun
  · intro visit hvisit hcuts nextId child hchild
    obtain ⟨_, _, _, _, -, -, visited⟩ := reached.exists_step visit hvisit
    rcases (visited_of_visit visited).children_cases nextId with hnone | ⟨i, hi, v, hoff, htwo⟩
    · rw [hnone] at hchild
      cases hchild
    · obtain ⟨hup, hdown⟩ := split i hi v hoff
      rw [htwo] at hchild
      rcases List.mem_pair.1 hchild with rfl | rfl
      · exact List.forall_mem_cons.2 ⟨hup, hcuts⟩
      · exact List.forall_mem_cons.2 ⟨hdown, hcuts⟩

end Model

end IntegerProgram
