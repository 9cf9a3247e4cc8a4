import Mathlib
import IntegerProgram.Proofs.BranchBound.Partition

/-!
# Conservation laws of the search tree

The counts, numbers and depths of a search tree agree at all times, for every number system, every model,
every settings and every oracle:

* `Tree.IsCounted`: every node that was pushed is pending or was recorded with one fate. Like whatever else
  holds here, it is derived from what one round does (`Tree.Turns`).
* `Node.Stacked`: the pending nodes get deeper from the bottom to the top, where two siblings may stand.
* `Model.reaches_isConserved` states all of it for the trees to which a search can come.
-/

namespace IntegerProgram

variable {σ α : Type} {m n : Nat}

/-! ## Counts -/

/-- The number of nodes with any fate. -/
def Tally.total (tally : Tally) : Nat :=
  tally.emptyDomain + tally.relaxationInfeasible + tally.dominated + tally.integerCandidates +
    tally.branched

lemma Tally.total_count (tally : Tally) (fate : Fate) :
    (tally.count fate).total = tally.total + 1 := by
  cases fate <;> simp only [total, count] <;> omega

lemma Tally.branched_count (tally : Tally) (fate : Fate) :
    (tally.count fate).branched = tally.branched + if fate = .branched then 1 else 0 := by
  cases fate <;> rfl

lemma Tally.emptyDomain_count (tally : Tally) (fate : Fate) :
    (tally.count fate).emptyDomain = tally.emptyDomain + if fate = .emptyDomain then 1 else 0 := by
  cases fate <;> rfl

/-- Every node that was pushed is pending or was recorded once, and all but the root were pushed in pairs. -/
structure Tree.IsCounted (tree : Tree α) : Prop where
  created : tree.frontier.added = 1 + 2 * tree.tally.branched
  explored : tree.frontier.popped = tree.tally.total
  balance : tree.frontier.size + tree.frontier.popped = tree.frontier.added
  nextId : tree.nextId = tree.frontier.added

lemma Tree.isCounted_start : (start : Tree α).IsCounted :=
  ⟨rfl, rfl, rfl, rfl⟩

lemma Tree.IsCounted.turns {tree next : Tree α} {visit : Visit α} (h : tree.IsCounted)
    (turns : tree.Turns visit next) : next.IsCounted := by
  obtain ⟨rest, hpending, hnext⟩ := turns.pending
  have hsize : tree.frontier.size = rest.length + 1 := congrArg List.length hpending
  have hsize' : next.frontier.size =
      (visit.verdict.children visit.node tree.nextId).length + rest.length := by
    rw [← List.length_append]
    exact congrArg List.length hnext
  have htotal : next.tally.total = tree.tally.total + 1 := by
    rw [turns.tally, Tally.total_count]
  have hbranched := tree.tally.branched_count visit.verdict.fate
  rw [← turns.tally] at hbranched
  have hlength := visit.verdict.length_children visit.node tree.nextId
  obtain ⟨hcreated, hexplored, hbalance, hnumber⟩ := h
  obtain ⟨-, -, hnextId, hadded, hpopped, -, -⟩ := turns
  constructor
  · by_cases hfate : visit.verdict.fate = .branched
    · rw [if_pos hfate] at hbranched hlength
      omega
    · rw [if_neg hfate] at hbranched hlength
      omega
  · omega
  · omega
  · omega

/-! ## Depths -/

/-- Nodes, latest first, whose depths fall all the way down; only the two latest may be siblings. -/
inductive Node.Stacked : List (Node α) → Prop
  | falling {nodes : List (Node α)}
      (falls : nodes.Pairwise fun upper lower => lower.depth < upper.depth) : Stacked nodes
  | siblings {up down : Node α} {rest : List (Node α)} {parent : Nat}
      (above : up.parent = some parent) (below : down.parent = some parent)
      (level : up.depth = down.depth)
      (falls : (down :: rest).Pairwise fun upper lower => lower.depth < upper.depth) :
      Stacked (up :: down :: rest)

/-- Every node of a stack is at least as deep as there are nodes below it. -/
def Node.Propped : List (Node α) → Prop
  | [] => True
  | node :: rest => rest.length ≤ node.depth ∧ Propped rest

lemma Node.Stacked.tail {node : Node α} {rest : List (Node α)} (h : Stacked (node :: rest)) :
    rest.Pairwise (fun upper lower => lower.depth < upper.depth) ∧
      ∀ lower ∈ rest, lower.depth ≤ node.depth := by
  cases h with
  | falling falls =>
    obtain ⟨hbelow, hrest⟩ := List.pairwise_cons.1 falls
    exact ⟨hrest, fun lower hlower => (hbelow lower hlower).le⟩
  | siblings _ _ level falls =>
    obtain ⟨hbelow, -⟩ := List.pairwise_cons.1 falls
    refine ⟨falls, ?_⟩
    intro lower hlower
    rcases List.mem_cons.1 hlower with rfl | hlower
    · exact level.ge
    · exact level ▸ (hbelow lower hlower).le

lemma Tree.Turns.stacked {tree next : Tree α} {visit : Visit α} (turns : tree.Turns visit next)
    (h : Node.Stacked tree.frontier.pending) : Node.Stacked next.frontier.pending := by
  obtain ⟨rest, hpending, hnext⟩ := turns.pending
  rw [hpending] at h
  rw [hnext]
  obtain ⟨hfalls, hbelow⟩ := h.tail
  cases visit.verdict with
  | split d =>
    refine .siblings rfl rfl rfl (List.pairwise_cons.2 ⟨?_, hfalls⟩)
    intro lower hlower
    exact Nat.lt_succ_of_le (hbelow lower hlower)
  | _ => exact .falling hfalls

lemma Tree.Turns.propped {tree next : Tree α} {visit : Visit α} (turns : tree.Turns visit next)
    (h : Node.Propped tree.frontier.pending) : Node.Propped next.frontier.pending := by
  obtain ⟨rest, hpending, hnext⟩ := turns.pending
  rw [hpending] at h
  rw [hnext]
  obtain ⟨hdeep, hrest⟩ := h
  cases visit.verdict with
  | split d => exact ⟨Nat.succ_le_succ hdeep, Nat.le_succ_of_le hdeep, hrest⟩
  | _ => exact hrest

/-- A peak that some node is deep enough for stays one: the frontier that a round leaves is no larger than
its latest node is deep. -/
lemma Tree.Turns.peak_le {tree next : Tree α} {visit : Visit α} {done : List (Visit α)}
    (turns : tree.Turns visit next) (propped : Node.Propped next.frontier.pending)
    (h : ∃ node ∈ tree.nodes done, tree.frontier.peak ≤ node.depth + 1) :
    ∃ node ∈ next.nodes (visit :: done), next.frontier.peak ≤ node.depth + 1 := by
  have hpeak := turns.peak
  obtain ⟨node, hnode, hle⟩ := h
  have hkept : node ∈ next.nodes (visit :: done) :=
    (turns.nodes done).mem_iff.2 (List.mem_append_right _ hnode)
  by_cases hlarge : next.frontier.size ≤ tree.frontier.peak
  · rw [max_eq_left hlarge] at hpeak
    exact ⟨node, hkept, hpeak.trans hle⟩
  · rw [max_eq_right (not_le.1 hlarge).le] at hpeak
    unfold Tree.nodes
    unfold Frontier.size at hpeak
    cases hpending : next.frontier.pending with
    | nil =>
      rw [hpending] at hpeak
      exact ⟨node, hpending ▸ hkept, hpeak.trans (Nat.zero_le _)⟩
    | cons top rest =>
      rw [hpending] at hpeak propped
      refine ⟨top, List.mem_append_left _ List.mem_cons_self, hpeak.trans ?_⟩
      exact Nat.succ_le_succ propped.1

/-! ## Whole searches -/

/-- What is conserved in a search tree after the visits `done`. -/
structure Tree.IsConserved (tree : Tree α) (done : List (Visit α)) : Prop where
  created : tree.stats.nodesCreated = 1 + 2 * tree.stats.tally.branched
  explored : tree.stats.nodesExplored = tree.stats.tally.emptyDomain +
    tree.stats.tally.relaxationInfeasible + tree.stats.tally.dominated +
    tree.stats.tally.integerCandidates + tree.stats.tally.branched
  balance : tree.stats.nodesOpen + tree.stats.nodesExplored = tree.stats.nodesCreated
  /-- The numbers of all nodes ever pushed, each once. -/
  ids : ((tree.nodes done).map (·.id)).Perm (List.range (2 * tree.stats.tally.branched + 1))
  family : ∀ node ∈ tree.nodes done, node = .root ∨
    ∃ visit ∈ done, visit.verdict.fate = .branched ∧ node.IsChildOf visit.node
  stacked : Node.Stacked tree.frontier.pending
  peak : ∃ node ∈ tree.nodes done, tree.stats.peakOpen ≤ node.depth + 1
  /-- A complete binary tree has one leaf more than inner nodes. -/
  exhausted : tree.frontier.pending = [] → tree.stats.tally.emptyDomain +
    tree.stats.tally.relaxationInfeasible + tree.stats.tally.dominated +
    tree.stats.tally.integerCandidates = tree.stats.tally.branched + 1

namespace Model

variable [Scalar α] {model : Model α m n} {settings : Settings α} {oracle : Oracle σ α}
  {tree : Tree α} {initial state : σ} {done : List (Visit α)}

lemma Reaches.isCounted (reached : model.Reaches settings oracle initial tree state done) :
    tree.IsCounted :=
  reached.turns_induction Tree.isCounted_start fun turns h => h.turns turns

lemma Reaches.stacked (reached : model.Reaches settings oracle initial tree state done) :
    Node.Stacked tree.frontier.pending :=
  reached.turns_induction (.falling (List.pairwise_singleton _ _)) fun turns h => turns.stacked h

lemma Reaches.peak_le (reached : model.Reaches settings oracle initial tree state done) :
    ∃ node ∈ tree.nodes done, tree.frontier.peak ≤ node.depth + 1 := by
  have h : Node.Propped tree.frontier.pending ∧
      ∃ node ∈ tree.nodes done, tree.frontier.peak ≤ node.depth + 1 := by
    refine reached.turns_induction ⟨⟨le_rfl, trivial⟩, .root, List.mem_singleton_self _, le_rfl⟩ ?_
    rintro tree next visit done turns ⟨propped, peak⟩
    exact ⟨turns.propped propped, turns.peak_le (turns.propped propped) peak⟩
  exact h.2

/-- A search whose questions are kept comes to the same trees. -/
lemma Reaches.recording (reached : model.Reaches settings oracle initial tree state done) :
    ∃ boxes, model.Reaches settings oracle.recording (initial, []) tree (state, boxes) done := by
  induction reached with
  | start => exact ⟨[], .start⟩
  | @step tree rest state state' done node visit _ popped visited ih =>
    obtain ⟨boxes, ih⟩ := ih
    obtain ⟨later, hrecorded⟩ := visit_recording model settings oracle node rest state boxes
    rw [visited] at hrecorded
    exact ⟨later, ih.step popped hrecorded⟩

/-- A question is asked about every node explored but those of an empty box. -/
lemma Reaches.length_questions {state : σ × List (Box α)}
    (reached : model.Reaches settings oracle.recording (initial, []) tree state done) :
    state.2.length + tree.tally.emptyDomain = tree.frontier.popped := by
  induction reached with
  | start => rfl
  | step _ popped visited ih =>
    have turns := turns_of_visit popped visited
    rw [turns.tally, turns.popped, Tally.emptyDomain_count, ← ih]
    cases visited_of_visit visited with
    | emptyDomain =>
      show _ + (_ + 1) = _
      omega
    | asked _ replied _ judged =>
      cases replied
      rw [List.length_cons]
      cases judged <;> simp [Verdict.fate] <;> omega

/-- The conservation laws of the search tree. They hold at every tree to which a search can come, whatever
the settings are and the oracle answers; and of a search whose questions are kept, one is kept for every
node explored but those of an empty box. -/
theorem reaches_isConserved (reached : model.Reaches settings oracle initial tree state done) :
    tree.IsConserved done ∧
    ∃ boxes, model.Reaches settings oracle.recording (initial, []) tree (state, boxes) done ∧
      boxes.length + tree.stats.tally.emptyDomain = tree.stats.nodesExplored := by
  obtain ⟨hcreated, hexplored, hbalance, hnextId⟩ := reached.isCounted
  obtain ⟨hids, -, hfamily⟩ := reached.isNumbered
  constructor
  · refine ⟨hcreated, hexplored, hbalance, ?_, hfamily, reached.stacked, reached.peak_le, ?_⟩
    · rw [hnextId, hcreated, add_comm] at hids
      exact hids
    · intro hempty
      have hsize : tree.frontier.size = 0 := congrArg List.length hempty
      unfold Tally.total at hexplored
      show tree.tally.emptyDomain + tree.tally.relaxationInfeasible + tree.tally.dominated +
        tree.tally.integerCandidates = tree.tally.branched + 1
      omega
  · obtain ⟨boxes, hrecorded⟩ := reached.recording
    exact ⟨boxes, hrecorded, hrecorded.length_questions⟩

/-- One binary variable without equations, in rounded numbers. -/
def lone : Model Float 0 1 :=
  { fromHalf with bounds := #v[.unit] }

/-- One half twice, although the second box has only the one; then the one itself, and nothing. -/
def loneAnswers : List (Relaxation Float) :=
  [.optimal 0.5 #[0.5], .optimal 0.5 #[0.5], .optimal 1 #[1], .infeasible]

/-- A complete search of five nodes with two splits, an empty box, a candidate and an infeasible relaxation:
four questions are asked. -/
theorem reaches_isConserved_lone : ∃ tree state done boxes,
    lone.Reaches Settings.standard .replaying loneAnswers tree state done ∧
    tree.frontier.pending = [] ∧ tree.stats.nodesExplored = 5 ∧ tree.stats.tally.branched = 2 ∧
    tree.IsConserved done ∧
    lone.Reaches Settings.standard Oracle.replaying.recording (loneAnswers, []) tree (state, boxes) done ∧
      boxes.length + tree.stats.tally.emptyDomain = tree.stats.nodesExplored := by
  have hsolution : (lone.searchWith .standard id .replaying loneAnswers).solution =
      .ok ⟨.optimal, some ⟨1, #[1]⟩, 5, 1⟩ := by
    decide +kernel
  obtain ⟨tree, done, reached, -, hfinish, hstatus⟩ := reaches_of_solution hsolution
  obtain ⟨hconserved, boxes, hrecorded, hquestions⟩ := reaches_isConserved reached
  have hpending : tree.frontier.pending = [] := by
    rcases hstatus with ⟨hpop, -⟩ | hlimit
    · exact Tree.pending_of_pop_none hpop
    · cases hlimit
  have hexplored : tree.stats.nodesExplored = 5 := (congrArg Solution.nodesExplored hfinish).symm
  have hopen : tree.stats.nodesOpen = 0 := congrArg List.length hpending
  have hbalance := hconserved.balance
  have hcreated := hconserved.created
  exact ⟨tree, _, done, boxes, reached, hpending, hexplored, by omega, hconserved, hrecorded,
    hquestions⟩

end Model

end IntegerProgram
