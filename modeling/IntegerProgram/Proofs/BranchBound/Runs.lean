import Mathlib
import IntegerProgram.BranchBound.Search
import IntegerProgram.Proofs.BranchBound.Selection

/-!
# Runs of the search

What one visit can do, and which states a search can come to, for every number system and every oracle:

* `Model.Judged` and `Model.Visited` list the ways to a verdict and the ways through a visit;
  `Model.visited_of_visit` says that there are no others.
* `Model.explore_visited` and its siblings are the ways through one round of the search.
* `Model.Reaches` holds of the tree, the oracle's state and the visits after any number of visits;
  `Model.Reaches.exists_step` tells where each of the visits was made, and `Model.Reaches.found` where the
  incumbent comes from.
* `Model.explore_finished` and `Model.explore_failed` say that a search ends in a state it can come to.
* `Oracle.recording` is an oracle that also keeps the boxes it was asked about, and `Model.questions` are
  the boxes that a whole search asks about; keeping them changes nothing (`Model.ending_recording`).
-/

namespace IntegerProgram

variable {σ α : Type} {m n : Nat}

/-- A computation in two steps that succeeds has succeeded in both. -/
lemma Fault.bind_ok {ε β γ : Type} {first : Except ε β} {next : β → Except ε γ} {c : γ}
    (h : first.bind next = .ok c) : ∃ b, first = .ok b ∧ next b = .ok c := by
  cases first with
  | error _ => cases h
  | ok b => exact ⟨b, rfl, h⟩

/-- Without a time limit it is never late. -/
lemma Settings.isLate_of_untimed {settings : Settings α} (untimed : settings.timeLimit = none)
    (elapsed : Nat) : settings.isLate elapsed = false := by
  rw [isLate, untimed]
  rfl

/-! ## Trees -/

/-- The children that a verdict on a node leaves, the upper first. -/
def Verdict.children (verdict : Verdict α) (node : Node α) (nextId : Nat) : List (Node α) :=
  match verdict with
  | .split d => [node.child (nextId + 1) d.up, node.child nextId d.down]
  | _ => []

/-- The incumbent after a verdict: a candidate is offered. -/
def Verdict.improve [Scalar α] (verdict : Verdict α) (incumbent : Incumbent α) : Incumbent α :=
  match verdict with
  | .candidate c => incumbent.offer c
  | _ => incumbent

namespace Tree

/-- What is left of a tree without the node to explore next. -/
structure Pops (tree : Tree α) (node : Node α) (rest : Tree α) : Prop where
  pending : tree.frontier.pending = node :: rest.frontier.pending
  incumbent : rest.incumbent = tree.incumbent
  nextId : rest.nextId = tree.nextId
  explored : rest.explored = tree.explored + 1

/-- Taking a node changes nothing else. -/
lemma pops_of_pop {tree rest : Tree α} {node : Node α} (h : tree.pop? = some (node, rest)) :
    tree.Pops node rest := by
  unfold pop? Frontier.pop? at h
  split at h
  · cases h
  · rename_i first others hpending
    cases h
    exact ⟨hpending, rfl, rfl, rfl⟩

/-- Nothing can be taken from a tree where nothing is pending. -/
lemma pending_of_pop_none {tree : Tree α} (h : tree.pop? = none) : tree.frontier.pending = [] := by
  unfold pop? Frontier.pop? at h
  split at h
  · assumption
  · cases h

/-- A complete search has not ended at a limit. -/
@[simp] lemma isLimit_exhaustedStatus (tree : Tree α) : tree.exhaustedStatus.isLimit = false := by
  unfold exhaustedStatus
  split <;> rfl

lemma exhausted_ne_limit {status : Status} (limit : status.isLimit = true) (tree last : Tree α) :
    SearchEnd.finished tree.exhaustedStatus tree ≠ .finished status last := by
  intro h
  have hstatus := tree.isLimit_exhaustedStatus
  rw [(SearchEnd.finished.inj h).1, limit] at hstatus
  cases hstatus

variable [Scalar α] (tree : Tree α) (node : Node α) (verdict : Verdict α)

/-- After a verdict the children are explored first. -/
@[simp] lemma pending_settle : (tree.settle node verdict).frontier.pending =
    verdict.children node tree.nextId ++ tree.frontier.pending := by
  cases verdict <;> rfl

/-- A verdict takes one number for each child. -/
@[simp] lemma nextId_settle : (tree.settle node verdict).nextId =
    tree.nextId + (verdict.children node tree.nextId).length := by
  cases verdict <;> rfl

/-- Settling a node explores none. -/
@[simp] lemma explored_settle : (tree.settle node verdict).explored = tree.explored := by
  cases verdict <;> rfl

/-- A verdict offers its candidate to the incumbent. -/
@[simp] lemma incumbent_settle :
    (tree.settle node verdict).incumbent = verdict.improve tree.incumbent := by
  cases verdict <;> rfl

end Tree

/-- A search that returns has finished with the status of its solution. -/
lemma SearchRun.ending_of_solution {run : SearchRun σ α} {solution : Solution α}
    (returned : run.solution = .ok solution) :
    ∃ last, run.ending = .finished solution.status last ∧
      solution = last.finish solution.status := by
  unfold SearchRun.solution at returned
  split at returned
  · rename_i status last hending
    cases returned
    exact ⟨last, hending, rfl⟩
  · cases returned

/-! ## Visits -/

variable [Scalar α]

namespace Model

/-- The ways to a verdict on a relaxation under an incumbent. -/
inductive Judged (model : Model α m n) (settings : Settings α) (incumbent : Incumbent α) :
    Relaxation α → Verdict α → Prop
  | infeasible : Judged model settings incumbent .infeasible .infeasible
  | dominated {objective : α} {x : Vector α n}
      (reached : incumbent.dominates objective settings.pruneTol = true) :
      Judged model settings incumbent (.optimal objective x.toArray) .dominated
  | split {objective : α} {x : Vector α n} {d : Decision α}
      (missed : incumbent.dominates objective settings.pruneTol = false)
      (chosen : settings.branchingRule.select model x.toArray settings.integralityTol =
        .ok (some d)) :
      Judged model settings incumbent (.optimal objective x.toArray) (.split d)
  | candidate {objective : α} {x : Vector α n} {c : Candidate α}
      (missed : incumbent.dominates objective settings.pruneTol = false)
      (integral : settings.branchingRule.select model x.toArray settings.integralityTol = .ok none)
      (rounded : Candidate.ofPoint x.toArray model.integerIndices model.cost.toArray = .ok c) :
      Judged model settings incumbent (.optimal objective x.toArray) (.candidate c)

/-- The ways through the visit of a node that comes to a verdict. -/
inductive Visited (model : Model α m n) (settings : Settings α) (oracle : Oracle σ α)
    (node : Node α) (tree : Tree α) (state : σ) : Visit α → σ → Prop
  | emptyDomain (void : node.box model.box = .ok none) :
      Visited model settings oracle node tree state ⟨node, tree, none, .emptyDomain⟩ state
  | asked {box : Box α} {reply : Reply α} {relaxation : Relaxation α} {verdict : Verdict α}
      {state' : σ} (left : node.box model.box = .ok (some box))
      (replied : oracle box state = (reply, state')) (answered : reply.answer = .ok relaxation)
      (judged : model.Judged settings tree.incumbent relaxation verdict) :
      Visited model settings oracle node tree state ⟨node, tree, some (box, reply), verdict⟩ state'

variable {model : Model α m n} {settings : Settings α} {oracle : Oracle σ α} {node : Node α}
  {tree : Tree α} {state state' : σ} {visit : Visit α}

/-- A verdict on a point splits it or takes the rounded point as a candidate. -/
lemma judgePoint_cases {values : Array α} {verdict : Verdict α}
    (h : model.judgePoint settings values = .ok verdict) :
    (∃ d, settings.branchingRule.select model values settings.integralityTol = .ok (some d) ∧
      verdict = .split d) ∨
    (∃ c, settings.branchingRule.select model values settings.integralityTol = .ok none ∧
      Candidate.ofPoint values model.integerIndices model.cost.toArray = .ok c ∧
      verdict = .candidate c) := by
  obtain ⟨choice, chosen, h⟩ := Fault.bind_ok h
  cases choice with
  | some d =>
    cases h
    exact .inl ⟨d, chosen, rfl⟩
  | none =>
    obtain ⟨c, rounded, h⟩ := Fault.bind_ok h
    cases h
    exact .inr ⟨c, chosen, rounded, rfl⟩

/-- A verdict on a relaxation is reached in one of the listed ways. -/
lemma judged_of_judge {incumbent : Incumbent α} {relaxation : Relaxation α} {verdict : Verdict α}
    (h : model.judge settings incumbent relaxation = .ok verdict) :
    model.Judged settings incumbent relaxation verdict := by
  cases relaxation with
  | infeasible =>
    cases h
    exact .infeasible
  | optimal objective values =>
    simp only [judge] at h
    split at h
    · cases h
    · rename_i hsize
      obtain ⟨x, rfl⟩ : ∃ x : Vector α n, values = x.toArray :=
        ⟨⟨values, not_not.1 hsize⟩, rfl⟩
      cases hreached : incumbent.dominates objective settings.pruneTol with
      | true =>
        rw [hreached] at h
        cases h
        exact .dominated hreached
      | false =>
        rw [hreached] at h
        cases hpoint : model.judgePoint settings x.toArray with
        | error fault =>
          rw [hpoint] at h
          cases h
        | ok verdict' =>
          rw [hpoint] at h
          cases h
          rcases judgePoint_cases hpoint with ⟨d, chosen, rfl⟩ | ⟨c, integral, rounded, rfl⟩
          · exact .split hreached chosen
          · exact .candidate hreached integral rounded

/-- A visit that comes to a verdict goes one of the listed ways. -/
lemma visited_of_visit (h : model.visit settings oracle node tree state = (.ok visit, state')) :
    model.Visited settings oracle node tree state visit state' := by
  unfold Model.visit at h
  split at h
  · cases h
  · rename_i void
    cases h
    exact .emptyDomain void
  · rename_i box left
    cases hreply : oracle box state with
    | mk reply next =>
      simp only [hreply] at h
      split at h
      · cases h
      · rename_i verdict hverdict
        cases h
        obtain ⟨relaxation, answered, judged⟩ := Fault.bind_ok hverdict
        exact .asked left hreply answered (judged_of_judge judged)

/-- A visit is about the node that was taken. -/
lemma Visited.node_eq (h : model.Visited settings oracle node tree state visit state') :
    visit.node = node := by
  cases h <;> rfl

/-- A visit keeps the tree that was left. -/
lemma Visited.tree_eq (h : model.Visited settings oracle node tree state visit state') :
    visit.tree = tree := by
  cases h <;> rfl

/-- What a visit asks is the box of its node, and it is told what the oracle replies. -/
lemma Visited.asked_eq (h : model.Visited settings oracle node tree state visit state') :
    ∀ asked ∈ visit.asked, node.box model.box = .ok (some asked.1) ∧
      oracle asked.1 state = (asked.2, state') := by
  cases h with
  | emptyDomain => nofun
  | asked left replied =>
    rintro _ ⟨⟩
    exact ⟨left, replied⟩

/-- A node is closed as empty only when its cuts leave no box. -/
lemma Visited.void (h : model.Visited settings oracle node tree state visit state')
    (hfate : visit.verdict.fate = .emptyDomain) : node.box model.box = .ok none := by
  cases h with
  | emptyDomain void => exact void
  | asked _ _ _ judged => cases judged <;> cases hfate

/-- The box asked about is what the cuts of the node leave. -/
lemma cutAll_of_box {base box : Box α} (left : node.box base = .ok (some box)) :
    base.cutAll node.cuts = .ok box := by
  obtain ⟨merged, hmerged, h⟩ := Fault.bind_ok left
  by_cases hempty : merged.isEmpty = true
  · simp [hempty] at h
    cases h
  · simp [hempty] at h
    cases h
    exact hmerged

/-- A relaxation gets no verdict if its point has the wrong length or the verdict faults. -/
lemma judge_error {incumbent : Incumbent α} {relaxation : Relaxation α} {error : Error}
    (h : model.judge settings incumbent relaxation = .error error) :
    (∃ entries, error = .oracle (.wrongLength entries n)) ∨ ∃ fault, error = .fault fault := by
  cases relaxation with
  | infeasible => cases h
  | optimal objective values =>
    simp only [judge] at h
    split at h
    · cases h
      exact .inl ⟨_, rfl⟩
    · split at h
      · cases h
      · cases hpoint : model.judgePoint settings values with
        | error fault =>
          rw [hpoint] at h
          cases h
          exact .inr ⟨fault, rfl⟩
        | ok verdict =>
          rw [hpoint] at h
          cases h

/-- A visit without a verdict found no box, or it asked the oracle and got an error or a relaxation that
cannot be judged. -/
lemma visit_error {breakdown : Breakdown α}
    (h : model.visit settings oracle node tree state = (.error breakdown, state')) :
    (∃ fault, breakdown.error = .fault fault) ∨
    ∃ box reply, node.box model.box = .ok (some box) ∧ oracle box state = (reply, state') ∧
      (reply.answer = .error breakdown.error ∨
        ∃ relaxation, model.judge settings tree.incumbent relaxation = .error breakdown.error) := by
  unfold Model.visit at h
  split at h
  · rename_i fault _
    cases h
    exact .inl ⟨fault, rfl⟩
  · cases h
  · rename_i box left
    cases hreply : oracle box state with
    | mk reply next =>
      simp only [hreply] at h
      refine .inr ⟨box, reply, left, ?_⟩
      cases hanswer : reply.answer with
      | error error =>
        rw [hanswer] at h
        cases h
        exact ⟨hreply, .inl rfl⟩
      | ok relaxation =>
        rw [hanswer] at h
        simp only [Except.bind] at h
        cases hjudge : model.judge settings tree.incumbent relaxation with
        | error error =>
          rw [hjudge] at h
          cases h
          exact ⟨hreply, .inr ⟨relaxation, hjudge⟩⟩
        | ok verdict =>
          rw [hjudge] at h
          cases h

/-! ## Rounds -/

section Rounds

variable {clock : Nat → Nat} {budget : Nat} {rest : Tree α} {done : List (Visit α)}

lemma explore_exhausted (popped : tree.pop? = none) :
    model.explore settings clock oracle budget tree state done =
      ⟨done.reverse, .finished tree.exhaustedStatus tree, state⟩ := by
  rw [explore.eq_def]
  simp only [popped]

lemma explore_zero (popped : tree.pop? = some (node, rest)) :
    model.explore settings clock oracle 0 tree state done =
      ⟨done.reverse, .finished .nodeLimit tree, state⟩ := by
  rw [explore.eq_def]
  simp only [popped]

lemma explore_late (popped : tree.pop? = some (node, rest))
    (late : settings.isLate (clock tree.explored) = true) :
    model.explore settings clock oracle (budget + 1) tree state done =
      ⟨done.reverse, .finished .timeLimit tree, state⟩ := by
  rw [explore.eq_def]
  simp only [popped, late, if_true]

lemma explore_broken {breakdown : Breakdown α} (popped : tree.pop? = some (node, rest))
    (early : ¬ settings.isLate (clock tree.explored) = true)
    (broken : model.visit settings oracle node rest state = (.error breakdown, state')) :
    model.explore settings clock oracle (budget + 1) tree state done =
      ⟨done.reverse, .failed breakdown, state'⟩ := by
  rw [explore.eq_def]
  simp only [popped, early, broken]
  rfl

lemma explore_visited (popped : tree.pop? = some (node, rest))
    (early : ¬ settings.isLate (clock tree.explored) = true)
    (visited : model.visit settings oracle node rest state = (.ok visit, state')) :
    model.explore settings clock oracle (budget + 1) tree state done =
      model.explore settings clock oracle budget visit.after state' (visit :: done) := by
  rw [explore.eq_def]
  simp only [popped, early, visited]
  rfl

end Rounds

/-! ## Reachable states -/

/-- The trees, the oracle's states and the visits, latest first, to which a search can come. -/
inductive Reaches (model : Model α m n) (settings : Settings α) (oracle : Oracle σ α)
    (initial : σ) : Tree α → σ → List (Visit α) → Prop
  | start : Reaches model settings oracle initial .start initial []
  | step {tree rest : Tree α} {state state' : σ} {done : List (Visit α)} {node : Node α}
      {visit : Visit α} (reached : Reaches model settings oracle initial tree state done)
      (popped : tree.pop? = some (node, rest))
      (visited : model.visit settings oracle node rest state = (.ok visit, state')) :
      Reaches model settings oracle initial visit.after state' (visit :: done)

variable {clock : Nat → Nat} {initial : σ} {done : List (Visit α)}

/-- Each visit was made on the way: the search came to the tree that its node was taken from. -/
lemma Reaches.exists_step (reached : model.Reaches settings oracle initial tree state done) :
    ∀ visit ∈ done, ∃ tree state state' earlier,
      model.Reaches settings oracle initial tree state earlier ∧
      tree.pop? = some (visit.node, visit.tree) ∧
      model.visit settings oracle visit.node visit.tree state = (.ok visit, state') := by
  induction reached with
  | start =>
    intro v hv
    cases hv
  | step reached popped visited ih =>
    have hvisited := visited_of_visit visited
    rw [← hvisited.node_eq, ← hvisited.tree_eq] at popped visited
    intro v hv
    rcases List.mem_cons.1 hv with rfl | hv
    · exact ⟨_, _, _, _, reached, popped, visited⟩
    · exact ih v hv

/-- The replies of the visits are replies of the oracle. -/
lemma Reaches.reply_eq (reached : model.Reaches settings oracle initial tree state done) :
    ∀ visit ∈ done, ∀ asked ∈ visit.asked, ∃ before, (oracle asked.1 before).1 = asked.2 := by
  intro visit hvisit asked hasked
  obtain ⟨_, before, _, _, -, -, visited⟩ := reached.exists_step visit hvisit
  obtain ⟨-, replied⟩ := (visited_of_visit visited).asked_eq asked hasked
  exact ⟨before, congrArg Prod.fst replied⟩

/-- The visit was told a point where no variable is to be split, and the candidate is the rounded point. -/
def Finds (model : Model α m n) (settings : Settings α) (visit : Visit α) (c : Candidate α) : Prop :=
  ∃ box reply objective, ∃ x : Vector α n, visit.asked = some (box, reply) ∧
    visit.node.box model.box = .ok (some box) ∧
    reply.answer = .ok (.optimal objective x.toArray) ∧
    settings.branchingRule.select model x.toArray settings.integralityTol = .ok none ∧
    Candidate.ofPoint x.toArray model.integerIndices model.cost.toArray = .ok c

lemma Visited.finds {c : Candidate α} (visited : model.Visited settings oracle node tree state visit state')
    (h : visit.verdict = .candidate c) : model.Finds settings visit c := by
  cases visited with
  | emptyDomain => cases h
  | asked left replied answered judged =>
    cases judged with
    | candidate missed integral rounded =>
      cases h
      exact ⟨_, _, _, _, rfl, left, answered, integral, rounded⟩
    | _ => cases h

/-- The incumbent was found by one of the visits and improved on the incumbent before. -/
lemma Reaches.found (reached : model.Reaches settings oracle initial tree state done) :
    ∀ best ∈ tree.incumbent.best, ∃ visit ∈ done, model.Finds settings visit best ∧
      visit.tree.incumbent.isImprovedBy best.objective = true := by
  induction reached with
  | start =>
    intro best hbest
    cases hbest
  | @step tree rest state state' done node visit reached popped visited ih =>
    have hvisited := visited_of_visit visited
    -- the visit compares with the incumbent of the tree before it
    rw [← (Tree.pops_of_pop popped).incumbent, ← hvisited.tree_eq] at ih
    have hkeep : ∀ best ∈ visit.tree.incumbent.best, ∃ v ∈ visit :: done,
        model.Finds settings v best ∧ v.tree.incumbent.isImprovedBy best.objective = true := by
      intro best hbest
      obtain ⟨v, hv, hfinds⟩ := ih best hbest
      exact ⟨v, List.mem_cons_of_mem _ hv, hfinds⟩
    intro best hbest
    rw [Visit.after, Tree.incumbent_settle] at hbest
    cases hverdict : visit.verdict with
    | candidate c =>
      rw [hverdict, Verdict.improve, Incumbent.offer] at hbest
      split at hbest
      · rename_i himproved
        cases hbest
        exact ⟨visit, List.mem_cons_self, hvisited.finds hverdict, himproved⟩
      · exact hkeep best hbest
    | _ =>
      rw [hverdict] at hbest
      exact hkeep best hbest

/-- A visit explores one node. -/
lemma explored_after {rest : Tree α} (popped : tree.Pops node rest)
    (visited : model.Visited settings oracle node rest state visit state') :
    visit.after.explored = tree.explored + 1 := by
  unfold Visit.after
  rw [Tree.explored_settle, visited.tree_eq, popped.explored]

/-- As many nodes are explored as visits made. -/
lemma Reaches.explored_eq (reached : model.Reaches settings oracle initial tree state done) :
    tree.explored = done.length := by
  induction reached with
  | start => rfl
  | step reached popped visited ih =>
    rw [explored_after (Tree.pops_of_pop popped) (visited_of_visit visited), ih, List.length_cons]

/-- A search that finishes has come to its last tree; it is complete when nothing is pending there, and
else it ends at a limit. -/
lemma explore_finished {budget : Nat} {status : Status} {last : Tree α}
    (reached : model.Reaches settings oracle initial tree state done)
    (h : (model.explore settings clock oracle budget tree state done).ending =
      .finished status last) :
    ∃ visits, model.Reaches settings oracle initial last
        (model.explore settings clock oracle budget tree state done).state visits ∧
      (model.explore settings clock oracle budget tree state done).visits = visits.reverse ∧
      ((last.pop? = none ∧ status = last.exhaustedStatus) ∨ status.isLimit = true) := by
  fun_induction explore model settings clock oracle budget tree state done with
  | case1 budget tree state done hpop =>
    cases h
    exact ⟨done, reached, rfl, .inl ⟨hpop, rfl⟩⟩
  | case2 tree state done _ hpop =>
    cases h
    exact ⟨done, reached, rfl, .inr rfl⟩
  | case3 tree state done node rest budget hpop hlate =>
    cases h
    exact ⟨done, reached, rfl, .inr rfl⟩
  | case4 tree state done node rest budget hpop hlate breakdown state' hvisit => cases h
  | case5 tree state done node rest budget hpop hlate visit state' hvisit ih =>
    exact ih (reached.step hpop hvisit) h

/-- A search that ends at the node limit has spent its budget and has nodes pending. -/
lemma explore_nodeLimit {budget : Nat} {last : Tree α}
    (h : (model.explore settings clock oracle budget tree state done).ending =
      .finished .nodeLimit last) :
    (model.explore settings clock oracle budget tree state done).visits.length =
      done.length + budget ∧ last.frontier.pending ≠ [] := by
  fun_induction explore model settings clock oracle budget tree state done with
  | case1 budget tree state done hpop => exact absurd h (tree.exhausted_ne_limit rfl last)
  | case2 tree state done popped hpop =>
    cases h
    refine ⟨List.length_reverse, ?_⟩
    rw [(Tree.pops_of_pop hpop).pending]
    exact List.cons_ne_nil _ _
  | case3 tree state done node rest budget hpop hlate => cases h
  | case4 tree state done node rest budget hpop hlate breakdown state' hvisit => cases h
  | case5 tree state done node rest budget hpop hlate visit state' hvisit ih =>
    obtain ⟨hlength, hpending⟩ := ih h
    refine ⟨hlength.trans ?_, hpending⟩
    rw [List.length_cons]
    omega

/-- A search that fails has come to a tree where the next visit breaks down. -/
lemma explore_failed {budget : Nat} {breakdown : Breakdown α}
    (reached : model.Reaches settings oracle initial tree state done)
    (h : (model.explore settings clock oracle budget tree state done).ending =
      .failed breakdown) :
    ∃ last before visits node rest, model.Reaches settings oracle initial last before visits ∧
      last.pop? = some (node, rest) ∧
      model.visit settings oracle node rest before =
        (.error breakdown, (model.explore settings clock oracle budget tree state done).state) ∧
      (model.explore settings clock oracle budget tree state done).visits = visits.reverse := by
  fun_induction explore model settings clock oracle budget tree state done with
  | case1 budget tree state done hpop => cases h
  | case2 tree state done _ hpop => cases h
  | case3 tree state done node rest budget hpop hlate => cases h
  | case4 tree state done node rest budget hpop hlate failure state' hvisit =>
    cases h
    exact ⟨tree, state, done, node, rest, reached, hpop, hvisit, rfl⟩
  | case5 tree state done node rest budget hpop hlate visit state' hvisit ih =>
    exact ih (reached.step hpop hvisit) h

/-- A search that returns has come to its last tree with the visits of the run. -/
lemma reaches_of_solution {solution : Solution α}
    (returned : (model.searchWith settings clock oracle initial).solution = .ok solution) :
    ∃ last done, model.Reaches settings oracle initial last
        (model.searchWith settings clock oracle initial).state done ∧
      (model.searchWith settings clock oracle initial).visits = done.reverse ∧
      solution = last.finish solution.status ∧
      ((last.pop? = none ∧ solution.status = last.exhaustedStatus) ∨
        solution.status.isLimit = true) := by
  obtain ⟨last, hending, hsolution⟩ := SearchRun.ending_of_solution returned
  obtain ⟨done, reached, hvisits, hstatus⟩ := explore_finished .start hending
  exact ⟨last, done, reached, hvisits, hsolution, hstatus⟩

/-- A solution counts the visits of its search. -/
lemma nodesExplored_eq {solution : Solution α}
    (returned : (model.searchWith settings clock oracle initial).solution = .ok solution) :
    solution.nodesExplored = (model.searchWith settings clock oracle initial).visits.length := by
  obtain ⟨last, done, reached, hvisits, hsolution, -⟩ := reaches_of_solution returned
  rw [hvisits, List.length_reverse, ← reached.explored_eq, hsolution]
  rfl

/-- However a search ends, it has come to a tree with the visits of the run. -/
lemma exists_reaches (model : Model α m n) (settings : Settings α) (clock : Nat → Nat)
    (oracle : Oracle σ α) (initial : σ) :
    ∃ tree state done, model.Reaches settings oracle initial tree state done ∧
      (model.searchWith settings clock oracle initial).visits = done.reverse := by
  cases hending : (model.searchWith settings clock oracle initial).ending with
  | finished status last =>
    obtain ⟨done, reached, hvisits, -⟩ := explore_finished .start hending
    exact ⟨last, _, done, reached, hvisits⟩
  | failed breakdown =>
    obtain ⟨last, before, done, -, -, reached, -, -, hvisits⟩ := explore_failed .start hending
    exact ⟨last, before, done, reached, hvisits⟩

end Model

/-! ## Questions -/

/-- The oracle that gives the answers of a list, one after the other, and fails when none is left. -/
def Oracle.replaying : Oracle (List (Relaxation α)) α := fun _ answers =>
  match answers with
  | answer :: rest => (⟨.ok answer, []⟩, rest)
  | [] => (⟨.error (.oracle (.other "no answer left")), []⟩, [])

/-- The oracle that also keeps the boxes it was asked about, latest first. -/
def Oracle.recording (oracle : Oracle σ α) : Oracle (σ × List (Box α)) α :=
  fun box (state, boxes) => ((oracle box state).1, (oracle box state).2, box :: boxes)

namespace Model

variable {model : Model α m n} {settings : Settings α} {clock : Nat → Nat} {oracle : Oracle σ α}
  {initial state : σ} {boxes : List (Box α)}

/-- The boxes that a search asks about, latest first. -/
def questions (model : Model α m n) (settings : Settings α) (clock : Nat → Nat)
    (oracle : Oracle σ α) (initial : σ) : List (Box α) :=
  (model.searchWith settings clock oracle.recording (initial, [])).state.2

/-- Keeping the boxes of one visit changes nothing else. -/
lemma visit_recording (model : Model α m n) (settings : Settings α) (oracle : Oracle σ α)
    (node : Node α) (tree : Tree α) (state : σ) (boxes : List (Box α)) :
    ∃ later, model.visit settings oracle.recording node tree (state, boxes) =
      ((model.visit settings oracle node tree state).1,
        ((model.visit settings oracle node tree state).2, later)) := by
  unfold Model.visit
  split
  · exact ⟨boxes, rfl⟩
  · exact ⟨boxes, rfl⟩
  · rename_i box _
    refine ⟨box :: boxes, ?_⟩
    cases hreply : oracle box state with
    | mk reply next =>
      simp only [Oracle.recording, hreply]
      cases reply.answer.bind (model.judge settings tree.incumbent) with
      | error _ => rfl
      | ok _ => rfl

/-- Keeping the boxes of a search changes nothing else. -/
lemma explore_recording (model : Model α m n) (settings : Settings α) (clock : Nat → Nat)
    (oracle : Oracle σ α) (budget : Nat) (tree : Tree α) (state : σ) (done : List (Visit α))
    (boxes : List (Box α)) :
    ∃ later, model.explore settings clock oracle.recording budget tree (state, boxes) done =
      ⟨(model.explore settings clock oracle budget tree state done).visits,
        (model.explore settings clock oracle budget tree state done).ending,
        ((model.explore settings clock oracle budget tree state done).state, later)⟩ := by
  -- the recorded search goes through the same cases, so the search itself guides the induction
  fun_induction explore model settings clock oracle budget tree state done generalizing boxes with
  | case1 budget tree state done hpop => exact ⟨boxes, explore_exhausted hpop⟩
  | case2 tree state done _ hpop => exact ⟨boxes, explore_zero hpop⟩
  | case3 tree state done node rest budget hpop hlate => exact ⟨boxes, explore_late hpop hlate⟩
  | case4 tree state done node rest budget hpop hlate failure state' hvisit =>
    obtain ⟨later, hrecorded⟩ := visit_recording model settings oracle node rest state boxes
    rw [hvisit] at hrecorded
    exact ⟨later, explore_broken hpop hlate hrecorded⟩
  | case5 tree state done node rest budget hpop hlate visit state' hvisit ih =>
    obtain ⟨later, hrecorded⟩ := visit_recording model settings oracle node rest state boxes
    rw [hvisit] at hrecorded
    rw [explore_visited hpop hlate hrecorded]
    exact ih later

/-- A search whose questions are kept ends as the search itself. -/
lemma ending_recording (model : Model α m n) (settings : Settings α) (clock : Nat → Nat)
    (oracle : Oracle σ α) (initial : σ) :
    (model.searchWith settings clock oracle.recording (initial, [])).ending =
      (model.searchWith settings clock oracle initial).ending := by
  obtain ⟨later, hlater⟩ :=
    explore_recording model settings clock oracle settings.maxNodes .start initial [] []
  unfold searchWith
  rw [hlater]

/-- A search whose questions are kept finds the same solution. -/
lemma solution_recording (model : Model α m n) (settings : Settings α) (clock : Nat → Nat)
    (oracle : Oracle σ α) (initial : σ) :
    (model.searchWith settings clock oracle.recording (initial, [])).solution =
      (model.searchWith settings clock oracle initial).solution := by
  unfold SearchRun.solution
  rw [ending_recording]

/-- The boxes of the visits that a recorded search has made are among those kept. -/
lemma Reaches.asked_mem {tree : Tree α} {state : σ × List (Box α)} {done : List (Visit α)}
    (h : model.Reaches settings oracle.recording (initial, []) tree state done) :
    ∀ visit ∈ done, ∀ asked ∈ visit.asked, asked.1 ∈ state.2 := by
  induction h with
  | start => simp
  | @step tree rest state state' done node visit reached popped visited ih =>
    have hgrow : ∀ box ∈ state.2, box ∈ state'.2 := by
      cases visited_of_visit visited with
      | emptyDomain => exact fun _ h => h
      | asked left replied =>
        cases replied
        exact fun _ h => List.mem_cons_of_mem _ h
    intro v hv asked hasked
    rcases List.mem_cons.1 hv with rfl | hv
    · cases visited_of_visit visited with
      | emptyDomain => cases hasked
      | asked left replied =>
        cases replied
        cases hasked
        exact List.mem_cons_self
    · exact hgrow _ (ih v hv asked hasked)

end Model

end IntegerProgram
