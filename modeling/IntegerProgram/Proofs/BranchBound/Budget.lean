import Mathlib
import IntegerProgram.Proofs.Binary64.Packing
import IntegerProgram.Proofs.BranchBound.Runs

/-!
# Budgets of nodes

A budget of nodes cuts a search short and does nothing else:

* `Model.resume` continues a search that ended at its node limit, and `Model.explore_add` says that a search
  with two budgets together is the search with the first, continued with the second.
* What a search has done, it keeps when it goes on: its visits (`Model.visits_resume`), its questions
  (`Model.recorded_resume`), and an incumbent at least as good (`Incumbent.ImprovesTo`).
* `Model.searchWith_truncates` compares the searches with two budgets.
-/

namespace IntegerProgram

variable {σ α : Type} {m n : Nat} [Scalar α]

/-! ## Incumbents -/

/-- A later incumbent: none of the updates is lost, and a best candidate is kept or beaten. -/
structure Incumbent.ImprovesTo (earlier later : Incumbent α) : Prop where
  updates : earlier.updates ≤ later.updates
  best : ∀ best ∈ earlier.best, ∃ better ∈ later.best,
    better = best ∨ better.objective < best.objective

namespace Incumbent

variable {first second third : Incumbent α}

lemma ImprovesTo.refl (incumbent : Incumbent α) : incumbent.ImprovesTo incumbent :=
  ⟨le_rfl, fun best hbest => ⟨best, hbest, .inl rfl⟩⟩

lemma ImprovesTo.trans [IsTrans α (· < ·)] (h : first.ImprovesTo second)
    (h' : second.ImprovesTo third) : first.ImprovesTo third := by
  refine ⟨h.updates.trans h'.updates, ?_⟩
  intro best hbest
  obtain ⟨better, hbetter, hle⟩ := h.best best hbest
  obtain ⟨least, hleast, hle'⟩ := h'.best better hbetter
  refine ⟨least, hleast, ?_⟩
  rcases hle with rfl | hlt
  · exact hle'
  · rcases hle' with rfl | hlt'
    · exact .inr hlt
    · exact .inr (IsTrans.trans _ _ _ hlt' hlt)

/-- An offer is taken only if it beats the best candidate. -/
lemma improvesTo_offer (incumbent : Incumbent α) (c : Candidate α) :
    incumbent.ImprovesTo (incumbent.offer c) := by
  unfold offer
  split
  · rename_i himproved
    refine ⟨Nat.le_succ _, ?_⟩
    intro best hbest
    refine ⟨c, rfl, .inr ?_⟩
    rw [isImprovedBy, objective?, Option.mem_def.1 hbest] at himproved
    exact of_decide_eq_true himproved
  · exact .refl incumbent

end Incumbent

namespace Model

variable {model : Model α m n} {settings : Settings α} {clock : Nat → Nat} {oracle : Oracle σ α}
  {budget : Nat} {tree rest : Tree α} {node : Node α} {state state' initial : σ}
  {done : List (Visit α)} {visit : Visit α}

lemma improvesTo_after (popped : tree.Pops node rest)
    (visited : model.Visited settings oracle node rest state visit state') :
    tree.incumbent.ImprovesTo visit.after.incumbent := by
  rw [Visit.after, Tree.incumbent_settle, visited.tree_eq, popped.incumbent]
  cases visit.verdict with
  | candidate c => exact tree.incumbent.improvesTo_offer c
  | _ => exact .refl tree.incumbent

/-- A search that finishes has an incumbent at least as good as the one it went on with. -/
lemma improvesTo_explore [IsTrans α (· < ·)] {status : Status} {last : Tree α}
    (h : (model.explore settings clock oracle budget tree state done).ending =
      .finished status last) : tree.incumbent.ImprovesTo last.incumbent := by
  fun_induction explore model settings clock oracle budget tree state done with
  | case1 budget tree state done hpop =>
    cases h
    exact .refl _
  | case2 tree state done _ hpop =>
    cases h
    exact .refl _
  | case3 tree state done node rest budget hpop hlate =>
    cases h
    exact .refl _
  | case4 tree state done node rest budget hpop hlate breakdown state' hvisit => cases h
  | case5 tree state done node rest budget hpop hlate visit state' hvisit ih =>
    exact (improvesTo_after (Tree.pops_of_pop hpop) (visited_of_visit hvisit)).trans (ih h)

/-! ## Visits and questions -/

/-- A search keeps the visits made before it. -/
lemma visits_explore (model : Model α m n) (settings : Settings α) (clock : Nat → Nat)
    (oracle : Oracle σ α) (budget : Nat) (tree : Tree α) (state : σ) (done : List (Visit α)) :
    done.reverse <+: (model.explore settings clock oracle budget tree state done).visits := by
  fun_induction explore model settings clock oracle budget tree state done with
  | case5 tree state done node rest budget hpop hlate visit state' hvisit ih =>
    rw [List.reverse_cons] at ih
    exact (List.prefix_append _ _).trans ih
  | _ => exact List.prefix_rfl

/-- A search makes no more visits than its budget allows. -/
lemma length_visits_explore (model : Model α m n) (settings : Settings α) (clock : Nat → Nat)
    (oracle : Oracle σ α) (budget : Nat) (tree : Tree α) (state : σ) (done : List (Visit α)) :
    (model.explore settings clock oracle budget tree state done).visits.length ≤
      done.length + budget := by
  fun_induction explore model settings clock oracle budget tree state done with
  | case5 tree state done node rest budget hpop hlate visit state' hvisit ih =>
    rw [List.length_cons] at ih
    omega
  | _ =>
    rw [List.length_reverse]
    exact Nat.le_add_right _ _

/-- A visit keeps the questions asked before it. -/
lemma recorded_visit (model : Model α m n) (settings : Settings α) (oracle : Oracle σ α)
    (node : Node α) (tree : Tree α) (state : σ × List (Box α)) :
    state.2 <:+ (model.visit settings oracle.recording node tree state).2.2 := by
  unfold Model.visit
  split
  · exact List.suffix_rfl
  · exact List.suffix_rfl
  · rename_i box _
    simp only [Oracle.recording]
    split
    · exact List.suffix_cons box state.2
    · exact List.suffix_cons box state.2

/-- A search keeps the questions asked before it. -/
lemma recorded_explore (model : Model α m n) (settings : Settings α) (clock : Nat → Nat)
    (oracle : Oracle σ α) (budget : Nat) (tree : Tree α) (state : σ × List (Box α))
    (done : List (Visit α)) :
    state.2 <:+ (model.explore settings clock oracle.recording budget tree state done).state.2 := by
  fun_induction explore model settings clock oracle.recording budget tree state done with
  | case4 tree state done node rest budget hpop hlate breakdown state' hvisit =>
    have hvisited := recorded_visit model settings oracle node rest state
    rw [hvisit] at hvisited
    exact hvisited
  | case5 tree state done node rest budget hpop hlate visit state' hvisit ih =>
    have hvisited := recorded_visit model settings oracle node rest state
    rw [hvisit] at hvisited
    exact hvisited.trans ih
  | _ => exact List.suffix_rfl

/-! ## Continued searches -/

/-- Continues a search that ended at its node limit with a further budget; any other search is over. -/
def resume (model : Model α m n) (settings : Settings α) (clock : Nat → Nat) (oracle : Oracle σ α)
    (extra : Nat) (run : SearchRun σ α) : SearchRun σ α :=
  match run.ending with
  | .finished .nodeLimit tree =>
    model.explore settings clock oracle extra tree run.state run.visits.reverse
  | _ => run

lemma resume_of_unlimited {run : SearchRun σ α} {extra : Nat}
    (unlimited : ∀ last, run.ending ≠ .finished .nodeLimit last) :
    model.resume settings clock oracle extra run = run := by
  unfold resume
  split
  · rename_i tree hending
    exact absurd hending (unlimited tree)
  · rfl

lemma resume_of_nodeLimit {run : SearchRun σ α} {extra : Nat} {last : Tree α}
    (limited : run.ending = .finished .nodeLimit last) :
    model.resume settings clock oracle extra run =
      model.explore settings clock oracle extra last run.state run.visits.reverse := by
  unfold resume
  rw [limited]

/-- A search with two budgets together is the search with the first, continued with the second. -/
lemma explore_add (model : Model α m n) (settings : Settings α) (clock : Nat → Nat)
    (oracle : Oracle σ α) (budget extra : Nat) (tree : Tree α) (state : σ) (done : List (Visit α)) :
    model.explore settings clock oracle (budget + extra) tree state done =
      model.resume settings clock oracle extra
        (model.explore settings clock oracle budget tree state done) := by
  fun_induction explore model settings clock oracle budget tree state done with
  | case1 budget tree state done hpop =>
    rw [resume_of_unlimited (tree.exhausted_ne_limit rfl)]
    exact explore_exhausted hpop
  | case2 tree state done _ hpop => rw [resume, List.reverse_reverse, Nat.zero_add]
  | case3 tree state done node rest budget hpop hlate =>
    rw [Nat.succ_add]
    exact explore_late hpop hlate
  | case4 tree state done node rest budget hpop hlate breakdown state' hvisit =>
    rw [Nat.succ_add]
    exact explore_broken hpop hlate hvisit
  | case5 tree state done node rest budget hpop hlate visit state' hvisit ih =>
    rw [Nat.succ_add]
    exact (explore_visited hpop hlate hvisit).trans ih

lemma visits_resume (model : Model α m n) (settings : Settings α) (clock : Nat → Nat)
    (oracle : Oracle σ α) (extra : Nat) (run : SearchRun σ α) :
    run.visits <+: (model.resume settings clock oracle extra run).visits := by
  unfold resume
  split
  · rename_i tree _
    have hvisits := visits_explore model settings clock oracle extra tree run.state run.visits.reverse
    rwa [List.reverse_reverse] at hvisits
  · exact List.prefix_rfl

lemma recorded_resume (model : Model α m n) (settings : Settings α) (clock : Nat → Nat)
    (oracle : Oracle σ α) (extra : Nat) (run : SearchRun (σ × List (Box α)) α) :
    run.state.2 <:+ (model.resume settings clock oracle.recording extra run).state.2 := by
  unfold resume
  split
  · exact recorded_explore ..
  · exact List.suffix_rfl

lemma improvesTo_resume [IsTrans α (· < ·)] {run : SearchRun σ α} {extra : Nat} {status : Status}
    {last final : Tree α} (limited : run.ending = .finished .nodeLimit last)
    (h : (model.resume settings clock oracle extra run).ending = .finished status final) :
    last.incumbent.ImprovesTo final.incumbent := by
  rw [resume_of_nodeLimit limited] at h
  exact improvesTo_explore h

/-! ## Two budgets -/

/-- Without a time limit, neither the clock nor the node limit of the settings matters to a search that has
its budget. -/
lemma explore_withMaxNodes (untimed : settings.timeLimit = none) (nodes : Nat)
    (clock clock' : Nat → Nat) (tree : Tree α) (state : σ) (done : List (Visit α)) :
    model.explore (settings.withMaxNodes nodes) clock oracle budget tree state done =
      model.explore settings clock' oracle budget tree state done := by
  have hearly : ∀ elapsed, ¬ (settings.withMaxNodes nodes).isLate elapsed = true := fun elapsed =>
    Bool.eq_false_iff.1 (Settings.isLate_of_untimed untimed elapsed)
  -- a visit reads the tolerances and the branching rule only, so `hvisit` is about both settings
  fun_induction explore model settings clock' oracle budget tree state done with
  | case1 budget tree state done hpop => exact explore_exhausted hpop
  | case2 tree state done _ hpop => exact explore_zero hpop
  | case3 tree state done node rest budget hpop hlate => exact absurd hlate (hearly _)
  | case4 tree state done node rest budget hpop hlate breakdown state' hvisit =>
    exact explore_broken hpop (hearly _) hvisit
  | case5 tree state done node rest budget hpop hlate visit state' hvisit ih =>
    exact (explore_visited hpop (hearly _) hvisit).trans ih

/-- Without a time limit, the search with the larger of two budgets continues the search with the smaller.
-/
lemma searchWith_resume (model : Model α m n) (oracle : Oracle σ α) (initial : σ)
    (untimed : settings.timeLimit = none) {few many : Nat} (le : few ≤ many)
    (clock clock' : Nat → Nat) :
    model.searchWith (settings.withMaxNodes many) clock' oracle initial =
      model.resume settings clock oracle (many - few)
        (model.searchWith (settings.withMaxNodes few) clock oracle initial) :=
  calc model.searchWith (settings.withMaxNodes many) clock' oracle initial
    _ = model.explore settings clock oracle many .start initial [] :=
      explore_withMaxNodes untimed many clock' clock .start initial []
    _ = model.explore settings clock oracle (few + (many - few)) .start initial [] := by
      rw [Nat.add_sub_cancel' le]
    _ = model.resume settings clock oracle (many - few)
        (model.explore settings clock oracle few .start initial []) := explore_add ..
    _ = model.resume settings clock oracle (many - few)
        (model.searchWith (settings.withMaxNodes few) clock oracle initial) :=
      congrArg _ (explore_withMaxNodes untimed few clock clock .start initial []).symm

lemma explore_ne_timeLimit (untimed : settings.timeLimit = none) {last : Tree α} :
    (model.explore settings clock oracle budget tree state done).ending ≠
      .finished .timeLimit last := by
  intro h
  fun_induction explore model settings clock oracle budget tree state done with
  | case1 budget tree state done hpop => exact tree.exhausted_ne_limit rfl last h
  | case2 tree state done _ hpop => cases h
  | case3 tree state done node rest budget hpop hlate =>
    rw [Settings.isLate_of_untimed untimed] at hlate
    cases hlate
  | case4 tree state done node rest budget hpop hlate breakdown state' hvisit => cases h
  | case5 tree state done node rest budget hpop hlate visit state' hvisit ih => exact ih h

/-- Without a time limit, a search ends at the node limit just when it has spent its budget and nodes are
pending. -/
lemma explore_nodeLimit_iff (untimed : settings.timeLimit = none) {status : Status} {last : Tree α}
    (reached : model.Reaches settings oracle initial tree state done)
    (h : (model.explore settings clock oracle budget tree state done).ending =
      .finished status last) :
    last.explored ≤ done.length + budget ∧
    (status = .nodeLimit ↔ last.explored = done.length + budget ∧ last.frontier.pending ≠ []) := by
  obtain ⟨visits, reached', hvisits, hstatus⟩ := explore_finished reached h
  have hexplored : last.explored =
      (model.explore settings clock oracle budget tree state done).visits.length := by
    rw [hvisits, List.length_reverse, reached'.explored_eq]
  refine ⟨hexplored.trans_le (length_visits_explore ..), ?_, ?_⟩
  · rintro rfl
    obtain ⟨hspent, hpending⟩ := explore_nodeLimit h
    exact ⟨hexplored.trans hspent, hpending⟩
  · rintro ⟨-, hpending⟩
    rcases hstatus with ⟨hpop, -⟩ | hlimit
    · exact absurd (Tree.pending_of_pop_none hpop) hpending
    · cases status with
      | nodeLimit => rfl
      | timeLimit => exact absurd h (explore_ne_timeLimit untimed)
      | optimal | infeasible => cases hlimit

end Model

/-- A run that a budget of nodes may have cut short, against the run that it was cut from. -/
structure SearchRun.Truncates (short : SearchRun σ α) (budget : Nat) (long : SearchRun σ α) :
    Prop where
  /-- What was visited is visited in the same way. -/
  visits : short.visits <+: long.visits
  within : short.visits.length ≤ budget
  /-- The node limit is met when the budget is spent and nodes are pending, and only then. -/
  limit : ∀ status last, short.ending = .finished status last → last.explored ≤ budget ∧
    (status = .nodeLimit ↔ last.explored = budget ∧ last.frontier.pending ≠ [])
  /-- A run that was not cut short is the whole run. -/
  complete : (∀ last, short.ending ≠ .finished .nodeLimit last) → long = short
  /-- The whole run explores no less and finds nothing worse. -/
  improved : ∀ early late, short.solution = .ok early → early.status = .nodeLimit →
    long.solution = .ok late → budget ≤ late.nodesExplored ∧
      early.incumbentUpdates ≤ late.incumbentUpdates ∧
      ∀ best ∈ early.best, ∃ better ∈ late.best,
        better = best ∨ better.objective < best.objective

namespace Model

variable {model : Model α m n} {settings : Settings α} {clock clock' : Nat → Nat}
  {oracle : Oracle σ α} {initial : σ} {few many : Nat}

/-- A budget of nodes only cuts a search short. Without a time limit, the search with the smaller of two
budgets goes the same way through the nodes as the search with the larger, up to where it ends, and asks the
same questions in the same order; they are kept latest first. -/
theorem searchWith_truncates [IsTrans α (· < ·)] (untimed : settings.timeLimit = none)
    (le : few ≤ many) :
    (model.searchWith (settings.withMaxNodes few) clock oracle initial).Truncates few
      (model.searchWith (settings.withMaxNodes many) clock' oracle initial) ∧
    model.questions (settings.withMaxNodes few) clock oracle initial <:+
      model.questions (settings.withMaxNodes many) clock' oracle initial := by
  have hlong := model.searchWith_resume oracle initial untimed le clock clock'
  have hvisits : (model.searchWith (settings.withMaxNodes few) clock oracle initial).visits <+:
      (model.searchWith (settings.withMaxNodes many) clock' oracle initial).visits := by
    rw [hlong]
    exact visits_resume ..
  refine ⟨⟨hvisits, ?_, ?_, ?_, ?_⟩, ?_⟩
  · have hwithin := length_visits_explore model (settings.withMaxNodes few) clock oracle few .start
      initial []
    rwa [List.length_nil, Nat.zero_add] at hwithin
  · intro status last hending
    have untimed' : (settings.withMaxNodes few).timeLimit = none := untimed
    have hlimit := explore_nodeLimit_iff untimed' .start hending
    rwa [List.length_nil, Nat.zero_add] at hlimit
  · intro unlimited
    rw [hlong, resume_of_unlimited unlimited]
  · intro early late hearly hlimit hlate
    have hexplored := nodesExplored_eq hlate
    obtain ⟨last, hending, hlast⟩ := SearchRun.ending_of_solution hearly
    obtain ⟨final, hending', hfinal⟩ := SearchRun.ending_of_solution hlate
    rw [hlimit] at hending
    rw [hlong] at hending'
    have himproved := improvesTo_resume hending hending'
    rw [hlast, hfinal]
    refine ⟨?_, himproved.updates, himproved.best⟩
    have hspent := (explore_nodeLimit hending).1
    rw [List.length_nil, Nat.zero_add] at hspent
    rw [← hfinal, hexplored]
    exact hspent.ge.trans hvisits.length_le
  · rw [questions, questions,
      model.searchWith_resume oracle.recording (initial, []) untimed le clock clock']
    exact recorded_resume ..

/-- Two integer variables from zero on with a row, in rounded numbers; the first costs one. -/
def weighed : Model Float 1 2 where
  matrix := .ofRows #v[#v[2, 5]]
  target := #v[10]
  cost := #v[1, 0]
  bounds := #v[.atLeast 0, .atLeast 0]
  integers := List.finRange 2
  ascending := List.pairwise_lt_finRange 2

/-- Three answers: a point between whole numbers, and one on either side. -/
def weighedAnswers : List (Relaxation Float) :=
  [.optimal 1.5 #[1.5, 2], .optimal 3 #[3, 2], .optimal 1 #[1, 2]]

/-- A search that has a candidate after two nodes and is complete with three, when it has a better one. -/
theorem searchWith_truncates_weighed :
    (weighed.searchWith (Settings.standard.withMaxNodes 2) id .replaying weighedAnswers).solution =
      .ok ⟨.nodeLimit, some ⟨3, #[3, 2]⟩, 2, 1⟩ ∧
    (weighed.searchWith (Settings.standard.withMaxNodes 3) id .replaying weighedAnswers).solution =
      .ok ⟨.optimal, some ⟨1, #[1, 2]⟩, 3, 2⟩ ∧
    (weighed.searchWith (Settings.standard.withMaxNodes 2) id .replaying weighedAnswers).Truncates 2
      (weighed.searchWith (Settings.standard.withMaxNodes 3) id .replaying weighedAnswers) ∧
    weighed.questions (Settings.standard.withMaxNodes 2) id .replaying weighedAnswers <:+
      weighed.questions (Settings.standard.withMaxNodes 3) id .replaying weighedAnswers := by
  have untimed : (Settings.standard : Settings Float).timeLimit = none := rfl
  exact ⟨by decide +kernel, by decide +kernel, searchWith_truncates untimed (by decide)⟩

end Model

end IntegerProgram
