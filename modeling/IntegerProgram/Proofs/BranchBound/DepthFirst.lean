import Mathlib
import IntegerProgram.Proofs.BranchBound.Runs
import IntegerProgram.Scalar.Rational

/-!
# The search as a recursion

The search keeps its pending nodes on a stack. Here it is shown to be the recursion that assesses a node and,
if the node is split, goes through everything below its upper child and then through everything below its
lower child:

* `Model.assess` reaches the verdict on a node. `Model.Descends` is the recursion, as a relation between where
  it starts and where it ends, since it need not end. It threads the incumbent, the next free number and the
  oracle's state through.
* `Model.DescendsAll` goes through several nodes. The children of the first come before the others
  (`Model.descendsAll_assessed`), which is what one round of the search does (`Model.descendsAll_visited`).
* `Model.explore_outline` and `Model.explore_spent` carry that over to whole searches, and
  `Model.searchWith_descends` is the result.
-/

namespace IntegerProgram

variable {σ α : Type} {m n : Nat}

/-- What happened at a node: the box asked about with the reply, the verdict, and the incumbent after it. -/
structure Footprint (α : Type) where
  node : Node α
  asked : Option (Box α × Reply α)
  verdict : Verdict α
  incumbent : Incumbent α

/-- What a recursion over nodes threads through; the footprints stand latest first. -/
structure Descent (σ α : Type) where
  footprints : List (Footprint α)
  incumbent : Incumbent α
  nextId : Nat
  state : σ

/-- What a search shows: the footprints in order, the solution or the failure, and the oracle's last state.
-/
structure Outline (σ α : Type) where
  footprints : List (Footprint α)
  result : Except (Breakdown α) (Solution α)
  state : σ

/-- A descent to its end, with the failure that stopped it or without. -/
abbrev Descended (σ α : Type) := Except (Breakdown α) Unit × Descent σ α

namespace Descent

/-- The descent before any node is assessed; number zero belongs to the root. -/
def start (initial : σ) : Descent σ α :=
  ⟨[], .empty, 1, initial⟩

/-- The solution that a descent through the whole tree has found. -/
def solution (descent : Descent σ α) : Solution α where
  status := if descent.incumbent.best.isSome then .optimal else .infeasible
  best := descent.incumbent.best
  nodesExplored := descent.footprints.length
  incumbentUpdates := descent.incumbent.updates

variable [Scalar α]

/-- The descent after a verdict on a node, which offers its candidate to the incumbent. -/
def mark (descent : Descent σ α) (node : Node α) (asked : Option (Box α × Reply α))
    (verdict : Verdict α) : Descent σ α :=
  let incumbent := verdict.improve descent.incumbent
  { descent with
    footprints := ⟨node, asked, verdict, incumbent⟩ :: descent.footprints
    incumbent }

end Descent

namespace Outline

/-- What a descent to its end shows. -/
def ofDescended (descended : Descended σ α) : Outline σ α where
  footprints := descended.2.footprints.reverse
  result := descended.1.map fun _ => descended.2.solution
  state := descended.2.state

/-- The number of nodes assessed, a node that failed included. -/
def assessed (outline : Outline σ α) : Nat :=
  match outline.result with
  | .ok _ => outline.footprints.length
  | .error _ => outline.footprints.length + 1

lemma assessed_complete (descent : Descent σ α) :
    (ofDescended (.ok (), descent)).assessed = descent.footprints.length :=
  List.length_reverse

lemma assessed_failed (breakdown : Breakdown α) (descent : Descent σ α) :
    (ofDescended (.error breakdown, descent)).assessed = descent.footprints.length + 1 :=
  congrArg (· + 1) List.length_reverse

end Outline

variable [Scalar α]

/-- The footprint of a visit. -/
def Visit.footprint (visit : Visit α) : Footprint α :=
  ⟨visit.node, visit.asked, visit.verdict, visit.after.incumbent⟩

/-- What a run shows. -/
def SearchRun.outline (run : SearchRun σ α) : Outline σ α where
  footprints := run.visits.map Visit.footprint
  result :=
    match run.ending with
    | .finished status tree => .ok (tree.finish status)
    | .failed breakdown => .error breakdown
  state := run.state

namespace Model

/-- Assesses a node: an empty box is not asked about, and the reply about any other is judged under the
incumbent of the descent. -/
def assess (model : Model α m n) (settings : Settings α) (oracle : Oracle σ α) (node : Node α)
    (descent : Descent σ α) : Except (Breakdown α) (Verdict α) × Descent σ α :=
  match node.box model.box with
  | .error fault => (.error ⟨.fault fault, []⟩, descent)
  | .ok none => (.ok .emptyDomain, descent.mark node none .emptyDomain)
  | .ok (some box) =>
    let (reply, state) := oracle box descent.state
    let descent := { descent with state }
    match reply.answer.bind (model.judge settings descent.incumbent) with
    | .error error => (.error ⟨error, reply.journal⟩, descent)
    | .ok verdict => (.ok verdict, descent.mark node (some (box, reply)) verdict)

/-- Going through everything below a node: the node itself, then the upper child to the end, and then the
lower child. A failure anywhere ends all of it. -/
inductive Descends (model : Model α m n) (settings : Settings α) (oracle : Oracle σ α) :
    Node α → Descent σ α → Descended σ α → Prop
  | failed {node : Node α} {descent after : Descent σ α} {breakdown : Breakdown α}
      (assessed : model.assess settings oracle node descent = (.error breakdown, after)) :
      Descends model settings oracle node descent (.error breakdown, after)
  | leaf {node : Node α} {descent after : Descent σ α} {verdict : Verdict α}
      (assessed : model.assess settings oracle node descent = (.ok verdict, after))
      (closed : verdict.fate ≠ .branched) :
      Descends model settings oracle node descent (.ok (), after)
  | split {node : Node α} {descent after middle : Descent σ α} {decision : Decision α}
      {last : Descended σ α}
      (assessed : model.assess settings oracle node descent = (.ok (.split decision), after))
      (up : Descends model settings oracle (node.child (after.nextId + 1) decision.up)
        { after with nextId := after.nextId + 2 } (.ok (), middle))
      (down : Descends model settings oracle (node.child after.nextId decision.down) middle last) :
      Descends model settings oracle node descent last
  | splitFailed {node : Node α} {descent after middle : Descent σ α} {decision : Decision α}
      {breakdown : Breakdown α}
      (assessed : model.assess settings oracle node descent = (.ok (.split decision), after))
      (up : Descends model settings oracle (node.child (after.nextId + 1) decision.up)
        { after with nextId := after.nextId + 2 } (.error breakdown, middle)) :
      Descends model settings oracle node descent (.error breakdown, middle)

/-- The recursion from the root shows an outline. -/
def Recurses (model : Model α m n) (settings : Settings α) (oracle : Oracle σ α) (initial : σ)
    (outline : Outline σ α) : Prop :=
  ∃ last, model.Descends settings oracle .root (.start initial) last ∧ outline = .ofDescended last

variable {model : Model α m n} {settings : Settings α} {oracle : Oracle σ α} {node : Node α}
  {descent after : Descent σ α} {last : Descended σ α} {verdict : Verdict α} {decision : Decision α}
  {breakdown : Breakdown α}

lemma Descends.of_failed (h : model.Descends settings oracle node descent last)
    (assessed : model.assess settings oracle node descent = (.error breakdown, after)) :
    last = (.error breakdown, after) := by
  cases h with
  | failed assessed' =>
    cases assessed.symm.trans assessed'
    rfl
  | leaf assessed' | split assessed' | splitFailed assessed' =>
    cases assessed.symm.trans assessed'

lemma Descends.of_leaf (h : model.Descends settings oracle node descent last)
    (assessed : model.assess settings oracle node descent = (.ok verdict, after))
    (closed : verdict.fate ≠ .branched) : last = (.ok (), after) := by
  cases h with
  | failed assessed' => cases assessed.symm.trans assessed'
  | leaf assessed' =>
    cases assessed.symm.trans assessed'
    rfl
  | split assessed' | splitFailed assessed' =>
    cases assessed.symm.trans assessed'
    exact absurd rfl closed

lemma Descends.of_split (h : model.Descends settings oracle node descent last)
    (assessed : model.assess settings oracle node descent = (.ok (.split decision), after)) :
    (∃ middle, model.Descends settings oracle (node.child (after.nextId + 1) decision.up)
        { after with nextId := after.nextId + 2 } (.ok (), middle) ∧
      model.Descends settings oracle (node.child after.nextId decision.down) middle last) ∨
    ∃ breakdown middle, last = (.error breakdown, middle) ∧
      model.Descends settings oracle (node.child (after.nextId + 1) decision.up)
        { after with nextId := after.nextId + 2 } (.error breakdown, middle) := by
  cases h with
  | failed assessed' => cases assessed.symm.trans assessed'
  | leaf assessed' closed =>
    cases assessed.symm.trans assessed'
    exact absurd rfl closed
  | split assessed' up down =>
    cases assessed.symm.trans assessed'
    exact .inl ⟨_, up, down⟩
  | splitFailed assessed' up =>
    cases assessed.symm.trans assessed'
    exact .inr ⟨_, _, rfl, up⟩

/-! ## Several nodes -/

/-- Going through everything below several nodes, one after the other. -/
inductive DescendsAll (model : Model α m n) (settings : Settings α) (oracle : Oracle σ α) :
    List (Node α) → Descent σ α → Descended σ α → Prop
  | nil {descent : Descent σ α} : DescendsAll model settings oracle [] descent (.ok (), descent)
  | cons {node : Node α} {rest : List (Node α)} {descent middle : Descent σ α}
      {last : Descended σ α} (first : model.Descends settings oracle node descent (.ok (), middle))
      (others : DescendsAll model settings oracle rest middle last) :
      DescendsAll model settings oracle (node :: rest) descent last
  | failed {node : Node α} {rest : List (Node α)} {descent after : Descent σ α}
      {breakdown : Breakdown α}
      (first : model.Descends settings oracle node descent (.error breakdown, after)) :
      DescendsAll model settings oracle (node :: rest) descent (.error breakdown, after)

variable {nodes : List (Node α)}

lemma descendsAll_nil :
    model.DescendsAll settings oracle [] descent last ↔ last = (.ok (), descent) := by
  constructor
  · rintro ⟨⟩
    rfl
  · rintro rfl
    exact .nil

lemma descendsAll_singleton :
    model.DescendsAll settings oracle [node] descent last ↔
      model.Descends settings oracle node descent last := by
  constructor
  · intro h
    cases h with
    | cons first others =>
      cases others
      exact first
    | failed first => exact first
  · intro h
    obtain ⟨_ | _, after⟩ := last
    · exact .failed h
    · exact .cons h .nil

/-- A node that cannot be assessed ends the descent. -/
lemma descendsAll_failed
    (assessed : model.assess settings oracle node descent = (.error breakdown, after)) :
    model.DescendsAll settings oracle (node :: nodes) descent last ↔
      last = (.error breakdown, after) := by
  constructor
  · intro h
    cases h with
    | cons first others => cases first.of_failed assessed
    | failed first => exact first.of_failed assessed
  · rintro rfl
    exact .failed (.failed assessed)

/-- After a node that is not split come the others. -/
lemma descendsAll_leaf
    (assessed : model.assess settings oracle node descent = (.ok verdict, after))
    (closed : verdict.fate ≠ .branched) :
    model.DescendsAll settings oracle (node :: nodes) descent last ↔
      model.DescendsAll settings oracle nodes after last := by
  constructor
  · intro h
    cases h with
    | cons first others =>
      cases first.of_leaf assessed closed
      exact others
    | failed first => cases first.of_leaf assessed closed
  · exact .cons (.leaf assessed closed)

/-- After a node that is split come its upper child, its lower child and the others. -/
lemma descendsAll_split
    (assessed : model.assess settings oracle node descent = (.ok (.split decision), after)) :
    model.DescendsAll settings oracle (node :: nodes) descent last ↔
      model.DescendsAll settings oracle
        (node.child (after.nextId + 1) decision.up :: node.child after.nextId decision.down :: nodes)
        { after with nextId := after.nextId + 2 } last := by
  constructor
  · intro h
    cases h with
    | cons first others =>
      obtain ⟨middle, up, down⟩ | ⟨_, _, h, -⟩ := first.of_split assessed
      · exact .cons up (.cons down others)
      · cases h
    | failed first =>
      obtain ⟨middle, up, down⟩ | ⟨_, _, h, up⟩ := first.of_split assessed
      · exact .cons up (.failed down)
      · cases h
        exact .failed up
  · intro h
    cases h with
    | cons up others =>
      cases others with
      | cons down others => exact .cons (.split assessed up down) others
      | failed down => exact .failed (.split assessed up down)
    | failed up => exact .failed (.splitFailed assessed up)

/-- The children of the first of several nodes come before the others. -/
lemma descendsAll_assessed
    (assessed : model.assess settings oracle node descent = (.ok verdict, after)) :
    model.DescendsAll settings oracle (node :: nodes) descent last ↔
      model.DescendsAll settings oracle (verdict.children node after.nextId ++ nodes)
        { after with nextId := after.nextId + (verdict.children node after.nextId).length } last := by
  cases verdict with
  | split decision => exact descendsAll_split assessed
  | _ => exact descendsAll_leaf assessed Fate.noConfusion

/-! ## Growth -/

/-- An assessment counts as one, whether it fails or not. -/
lemma assessed_assess {result : Except (Breakdown α) (Verdict α)}
    (h : model.assess settings oracle node descent = (result, after)) :
    (Outline.ofDescended (result.map fun _ => (), after)).assessed =
      descent.footprints.length + 1 := by
  unfold assess at h
  split at h
  · cases h
    exact Outline.assessed_failed _ _
  · cases h
    exact Outline.assessed_complete _
  · simp only at h
    split at h
    · cases h
      exact Outline.assessed_failed _ _
    · cases h
      exact Outline.assessed_complete _

lemma lt_length_assess
    (assessed : model.assess settings oracle node descent = (.ok verdict, after)) :
    descent.footprints.length < after.footprints.length :=
  (assessed_assess assessed).ge.trans_eq (Outline.assessed_complete after)

/-- Going through a node assesses at least one. -/
lemma Descends.lt_assessed (h : model.Descends settings oracle node descent last) :
    descent.footprints.length < (Outline.ofDescended last).assessed := by
  induction h with
  | failed assessed => exact (assessed_assess assessed).ge
  | leaf assessed closed => exact (assessed_assess assessed).ge
  | split assessed up down ihUp ihDown =>
    rw [Outline.assessed_complete] at ihUp
    exact (lt_length_assess assessed).trans (ihUp.trans ihDown)
  | splitFailed assessed up ihUp => exact (lt_length_assess assessed).trans ihUp

lemma DescendsAll.le_assessed (h : model.DescendsAll settings oracle nodes descent last) :
    descent.footprints.length ≤ (Outline.ofDescended last).assessed := by
  induction h with
  | nil => rw [Outline.assessed_complete]
  | cons first others ih =>
    have hfirst := first.lt_assessed
    rw [Outline.assessed_complete] at hfirst
    exact hfirst.le.trans ih
  | failed first => exact first.lt_assessed.le

/-- Going through at least one node assesses at least one. -/
lemma DescendsAll.lt_assessed (h : model.DescendsAll settings oracle (node :: nodes) descent last) :
    descent.footprints.length < (Outline.ofDescended last).assessed := by
  cases h with
  | cons first others =>
    have hfirst := first.lt_assessed
    rw [Outline.assessed_complete] at hfirst
    exact hfirst.trans_le others.le_assessed
  | failed first => exact first.lt_assessed

/-! ## Rounds of the search -/

/-- Where the recursion stands when the search has come to a tree. -/
def descentAt (tree : Tree α) (state : σ) (done : List (Visit α)) : Descent σ α :=
  ⟨done.map Visit.footprint, tree.incumbent, tree.nextId, state⟩

variable {tree rest : Tree α} {state state' : σ} {done : List (Visit α)} {clock : Nat → Nat}
  {budget : Nat} {initial : σ} {visit : Visit α}

/-- A node is assessed as it is visited. -/
lemma assess_descentAt (model : Model α m n) (settings : Settings α) (oracle : Oracle σ α)
    (state : σ) (done : List (Visit α)) (popped : tree.Pops node rest) :
    model.assess settings oracle node (descentAt tree state done) =
      match model.visit settings oracle node rest state with
      | (.ok visit, state) =>
        (.ok visit.verdict,
          { descentAt visit.after state (visit :: done) with nextId := tree.nextId })
      | (.error breakdown, state) => (.error breakdown, descentAt tree state done) := by
  unfold assess Model.visit
  cases node.box model.box with
  | error fault => rfl
  | ok left =>
    cases left with
    | none => simp [descentAt, Descent.mark, Visit.footprint, Visit.after, popped.incumbent]
    | some box =>
      simp only [descentAt, popped.incumbent]
      cases hreply : oracle box state with
      | mk reply state' =>
        simp only
        cases reply.answer.bind (model.judge settings tree.incumbent) with
        | error error => rfl
        | ok verdict => simp [Descent.mark, Visit.footprint, Visit.after, popped.incumbent]

/-- One round of the search is one step of the recursion through the pending nodes. -/
lemma descendsAll_visited (popped : tree.Pops node rest)
    (visited : model.visit settings oracle node rest state = (.ok visit, state')) :
    model.DescendsAll settings oracle tree.frontier.pending (descentAt tree state done) last ↔
      model.DescendsAll settings oracle visit.after.frontier.pending
        (descentAt visit.after state' (visit :: done)) last := by
  have assessed := model.assess_descentAt settings oracle state done popped
  rw [visited] at assessed
  have hvisit := visited_of_visit visited
  have hpending : visit.after.frontier.pending =
      visit.verdict.children node tree.nextId ++ rest.frontier.pending := by
    rw [Visit.after, Tree.pending_settle, hvisit.tree_eq, hvisit.node_eq, popped.nextId]
  have hnumbers : visit.after.nextId =
      tree.nextId + (visit.verdict.children node tree.nextId).length := by
    rw [Visit.after, Tree.nextId_settle, hvisit.tree_eq, hvisit.node_eq, popped.nextId]
  rw [popped.pending, descendsAll_assessed assessed, hpending]
  simp only [descentAt, hnumbers]

/-- A round of the search that fails ends the recursion too. -/
lemma descendsAll_broken (popped : tree.Pops node rest)
    (broken : model.visit settings oracle node rest state = (.error breakdown, state')) :
    model.DescendsAll settings oracle tree.frontier.pending (descentAt tree state done) last ↔
      last = (.error breakdown, descentAt tree state' done) := by
  have assessed := model.assess_descentAt settings oracle state done popped
  rw [broken] at assessed
  rw [popped.pending, descendsAll_failed assessed]

/-- A search that does not end at the node limit shows what the recursion through its pending nodes shows,
which ends in one way only. -/
lemma explore_outline (untimed : settings.timeLimit = none)
    (reached : model.Reaches settings oracle initial tree state done)
    (unlimited : ∀ last, (model.explore settings clock oracle budget tree state done).ending ≠
      .finished .nodeLimit last) :
    ∃ final, (∀ last, model.DescendsAll settings oracle tree.frontier.pending
        (descentAt tree state done) last ↔ last = final) ∧
      .ofDescended final = (model.explore settings clock oracle budget tree state done).outline := by
  -- by rounds of the search; each is a step of the recursion in both directions, so the end is unique
  fun_induction explore model settings clock oracle budget tree state done with
  | case1 budget tree state done hpop =>
    refine ⟨(.ok (), descentAt tree state done), ?_, ?_⟩
    · intro last
      rw [Tree.pending_of_pop_none hpop, descendsAll_nil]
    · simp only [Outline.ofDescended, descentAt, Descent.solution, SearchRun.outline, Except.map,
        List.length_map, ← reached.explored_eq, List.map_reverse]
      rfl
  | case2 tree state done _ hpop => exact absurd rfl (unlimited tree)
  | case3 tree state done node rest budget hpop hlate =>
    rw [Settings.isLate_of_untimed untimed] at hlate
    cases hlate
  | case4 tree state done node rest budget hpop hlate breakdown state' hvisit =>
    refine ⟨_, fun last => descendsAll_broken (Tree.pops_of_pop hpop) hvisit, ?_⟩
    simp only [Outline.ofDescended, descentAt, SearchRun.outline, Except.map, List.map_reverse]
  | case5 tree state done node rest budget hpop hlate visit state' hvisit ih =>
    obtain ⟨final, hfinal, houtline⟩ := ih (reached.step hpop hvisit) unlimited
    refine ⟨final, fun last => ?_, houtline⟩
    rw [descendsAll_visited (Tree.pops_of_pop hpop) hvisit, hfinal]

/-- A search that ends at the node limit has assessed fewer nodes than the recursion through its pending
nodes does, if that ends at all. -/
lemma explore_spent {limit : Tree α}
    (limited : (model.explore settings clock oracle budget tree state done).ending =
      .finished .nodeLimit limit)
    (h : model.DescendsAll settings oracle tree.frontier.pending (descentAt tree state done) last) :
    done.length + budget < (Outline.ofDescended last).assessed := by
  fun_induction explore model settings clock oracle budget tree state done with
  | case1 budget tree state done hpop => exact absurd limited (tree.exhausted_ne_limit rfl limit)
  | case2 tree state done popped hpop =>
    rw [(Tree.pops_of_pop hpop).pending] at h
    simpa [descentAt] using h.lt_assessed
  | case3 tree state done node rest budget hpop hlate => cases limited
  | case4 tree state done node rest budget hpop hlate breakdown state' hvisit => cases limited
  | case5 tree state done node rest budget hpop hlate visit state' hvisit ih =>
    have hlt := ih limited ((descendsAll_visited (Tree.pops_of_pop hpop) hvisit).1 h)
    rw [List.length_cons] at hlt
    omega

/-- The recursion from the root goes through the pending nodes of the first tree. -/
lemma recurses_iff {outline : Outline σ α} :
    model.Recurses settings oracle initial outline ↔
      ∃ last, model.DescendsAll settings oracle Tree.start.frontier.pending
        (descentAt .start initial []) last ∧ outline = .ofDescended last :=
  exists_congr fun _ => and_congr_left' descendsAll_singleton.symm

/-- A search that does not end at the node limit shows what the recursion from the root shows, and nothing
else. -/
lemma recurses_iff_of_unlimited (untimed : settings.timeLimit = none)
    (unlimited : ∀ last, (model.searchWith settings clock oracle initial).ending ≠
      .finished .nodeLimit last) (outline : Outline σ α) :
    model.Recurses settings oracle initial outline ↔
      outline = (model.searchWith settings clock oracle initial).outline := by
  obtain ⟨final, hfinal, houtline⟩ := explore_outline untimed .start unlimited
  rw [recurses_iff, searchWith, ← houtline]
  simp only [hfinal, exists_eq_left]

/-- The search is depth-first recursion, the upper child first. Without a time limit, a search that does not
end at its node limit shows what the recursion shows: the nodes in the same order, each with the same
question and reply, the same verdict and the same incumbent after it, and in the end the same solution or
the same failure after the same questions. A recursion that ends is such a search, if the node limit allows
for the nodes that it assesses. -/
theorem searchWith_descends (untimed : settings.timeLimit = none) :
    ((∀ last, (model.searchWith settings clock oracle initial).ending ≠
        .finished .nodeLimit last) →
      (∀ outline, model.Recurses settings oracle initial outline ↔
        outline = (model.searchWith settings clock oracle initial).outline) ∧
      ∃ outline, model.Recurses settings oracle.recording (initial, []) outline ∧
        outline.state.2 = model.questions settings clock oracle initial) ∧
    ∀ outline, model.Recurses settings oracle initial outline →
      outline.assessed ≤ settings.maxNodes →
      ∀ last, (model.searchWith settings clock oracle initial).ending ≠
        .finished .nodeLimit last := by
  constructor
  · intro unlimited
    refine ⟨recurses_iff_of_unlimited untimed unlimited, ?_⟩
    have hrecorded : ∀ last, (model.searchWith settings clock oracle.recording
        (initial, [])).ending ≠ .finished .nodeLimit last := by
      rw [ending_recording]
      exact unlimited
    exact ⟨_, (recurses_iff_of_unlimited untimed hrecorded _).2 rfl, rfl⟩
  · intro outline houtline hassessed limit limited
    obtain ⟨last, hlast, rfl⟩ := recurses_iff.1 houtline
    have hspent := explore_spent limited hlast
    rw [List.length_nil, Nat.zero_add] at hspent
    omega

/-- Two variables from zero on with a row, the first an integer at a cost of one. -/
def mixed : Model Rat 1 2 where
  matrix := .ofRows #v[#v[1, 3]]
  target := #v[12]
  cost := #v[1, 0]
  bounds := #v[.atLeast 0, .atLeast 0]
  integers := [0]
  ascending := List.pairwise_singleton _ _

/-- Four answers, points of the row. -/
def mixedAnswers : List (Relaxation Rat) :=
  [.optimal (3 / 2) #[3 / 2, 7 / 2], .optimal (5 / 2) #[5 / 2, 19 / 6], .optimal 3 #[3, 3],
    .optimal 2 #[2, 10 / 3]]

/-- A search with two splits and two candidates that fails at its fifth question: the recursion goes the
same way through the nodes, with the same candidates, and fails there too. -/
theorem searchWith_descends_mixed : ∃ outline : Outline (List (Relaxation Rat)) Rat,
    mixed.Recurses .standard .replaying mixedAnswers outline ∧
    outline.footprints.map (fun print => (print.node.id, print.node.depth, print.verdict.fate,
        print.incumbent.best.map (·.objective))) =
      [(0, 0, .branched, none), (2, 1, .branched, none), (4, 2, .integerCandidate, some 3),
        (3, 2, .integerCandidate, some 2)] ∧
    outline.assessed = 5 ∧
    ∃ recorded, mixed.Recurses .standard Oracle.replaying.recording (mixedAnswers, []) recorded ∧
      recorded.state.2 = [#[⟨0, some 1⟩, ⟨0, none⟩], #[⟨2, some 2⟩, ⟨0, none⟩],
        #[⟨3, none⟩, ⟨0, none⟩], #[⟨2, none⟩, ⟨0, none⟩], #[⟨0, none⟩, ⟨0, none⟩]] := by
  have untimed : (Settings.standard : Settings Rat).timeLimit = none := rfl
  have unlimited : ∀ last, (mixed.searchWith .standard id .replaying mixedAnswers).ending ≠
      .finished .nodeLimit last := by
    have failed : (mixed.searchWith .standard id .replaying mixedAnswers).solution =
        .error (.oracle (.other "no answer left")) := by
      decide +kernel
    intro last hending
    rw [SearchRun.solution, hending] at failed
    cases failed
  obtain ⟨houtline, recorded, hrecorded, hquestions⟩ := (searchWith_descends untimed).1 unlimited
  refine ⟨_, (houtline _).2 rfl, by decide +kernel, by decide +kernel, recorded, hrecorded,
    hquestions.trans ?_⟩
  decide +kernel

end Model

end IntegerProgram
