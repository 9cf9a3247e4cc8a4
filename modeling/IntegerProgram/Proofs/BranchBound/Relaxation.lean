import Mathlib
import IntegerProgram.Proofs.BranchBound.Completeness
import IntegerProgram.Proofs.LinearProgram.TwoPhase

/-!
# The simplex method as an oracle

Over exact scalars, with all tolerances of the relaxations zero and without near ties, the simplex method
is a sound oracle whose points are feasible. So a complete search with it has the cheapest integer point
of the box, up to the slack of the tolerances (`Model.search_report`), and if the costs are bounded from
below no relaxation is unbounded (`Model.search_error`).
-/

namespace IntegerProgram.Model

variable {m n : Nat} {model : Model Rat m n} {settings : SimplexSettings Rat} {box : Box Rat}

/-- The linear program of the relaxation over a box. -/
def relaxation (model : Model Rat m n) (bounds : Vector (Interval Rat) n) :
    LinearProgram Rat m n where
  matrix := model.matrix
  cost := model.cost
  rhs := model.target
  bounds

/-- The feasible points of a relaxation solve the equations and lie in the box. -/
lemma isFeasible_relaxation {bounds : Vector (Interval Rat) n} {z : Vector Rat n} :
    (model.relaxation bounds).IsFeasible z ↔
      model.matrix.Solves z model.target ∧ Box.Holds bounds.toArray z := by
  have hbox : Box.Holds bounds.toArray z ↔ ∀ j, (bounds.get j).Holds (z.get j) := by
    refine forall_congr' fun j => ?_
    rw [Array.getElem?_eq_getElem (by simp)]
    simp only [Option.mem_some_iff, exists_eq_left']
    rfl
  rw [hbox]
  exact ⟨fun h => ⟨h.solves, h.within⟩, fun h => ⟨h.1, h.2⟩⟩

/-- The stated problem of a relaxation has no defect. -/
lemma check_linearProblem (model : Model Rat m n) (bounds : Vector (Interval Rat) n) :
    (model.linearProblem bounds.toArray).check = .ok (model.relaxation bounds) :=
  LinearProblem.check_eq_ok model.cost.size_toArray model.target.size_toArray bounds.size_toArray

/-- A relaxation is answered, and the answer is what the outcome says. -/
lemma relax_certified {bounds : Vector (Interval Rat) n} (exact : settings.IsExact)
    (sharp : (model.relaxation bounds).Sharp settings) :
    ∃ pivots outcome, (model.relax settings bounds.toArray).answer =
        Relaxation.ofOutcome pivots outcome ∧
      (model.relaxation bounds).Certifies settings pivots outcome := by
  obtain ⟨outcome, hresult, hcertified⟩ := LinearProgram.solve_certified exact sharp
  refine ⟨_, outcome, ?_, hcertified⟩
  unfold relax LinearProblem.solve
  simp only [check_linearProblem, hresult]

/-- The simplex method answers soundly. -/
lemma isSound_relax {bounds : Vector (Interval Rat) n} (exact : settings.IsExact)
    (sharp : (model.relaxation bounds).Sharp settings) :
    model.IsSound bounds.toArray (model.relax settings bounds.toArray) := by
  obtain ⟨pivots, outcome, hanswer, hcertified⟩ := relax_certified exact sharp
  unfold IsSound
  rw [hanswer]
  cases outcome with
  | optimal x value =>
    obtain ⟨-, hvalue, hbest⟩ := hcertified
    refine ⟨x, rfl, hvalue, ?_⟩
    intro z hz hbox
    rw [hvalue]
    exact hbest z (isFeasible_relaxation.2 ⟨hz.solves, hbox⟩)
  | infeasible =>
    intro z hz hbox
    exact hcertified z (isFeasible_relaxation.2 ⟨hz.solves, hbox⟩)
  | unbounded => trivial
  | pivotLimit => trivial

/-- The points of the simplex method are feasible. -/
lemma isFeasibleReply_relax {bounds : Vector (Interval Rat) n} (exact : settings.IsExact)
    (sharp : (model.relaxation bounds).Sharp settings) :
    model.IsFeasibleReply bounds.toArray (model.relax settings bounds.toArray) := by
  obtain ⟨pivots, outcome, hanswer, hcertified⟩ := relax_certified exact sharp
  intro objective x hoptimal
  rw [hanswer] at hoptimal
  cases outcome with
  | optimal x' value =>
    obtain ⟨hfeasible, -, -⟩ := hcertified
    have hx : x'.toArray = x.toArray := by
      simp only [Relaxation.ofOutcome, Except.ok.injEq, Relaxation.optimal.injEq] at hoptimal
      exact hoptimal.2
    rw [← Vector.toArray_inj.1 hx]
    exact isFeasible_relaxation.1 hfeasible
  | infeasible => cases hoptimal
  | unbounded => cases hoptimal
  | pivotLimit => cases hoptimal

/-- A relaxation that is not solved is unbounded or at the limit of pivots. -/
lemma relax_error {bounds : Vector (Interval Rat) n} (exact : settings.IsExact)
    (sharp : (model.relaxation bounds).Sharp settings) {error : Error}
    (h : (model.relax settings bounds.toArray).answer = .error error) :
    (∃ pivots, error = .oracle (.pivotLimit pivots)) ∨
    error = .oracle .unbounded ∧ ∀ least, ∃ z : Vector Rat n, Box.Holds bounds.toArray z ∧
      Vectors.inner model.cost z < least := by
  obtain ⟨pivots, outcome, hanswer, hcertified⟩ := relax_certified exact sharp
  rw [hanswer] at h
  cases outcome with
  | optimal => cases h
  | infeasible => cases h
  | unbounded =>
    cases h
    refine .inr ⟨rfl, ?_⟩
    intro least
    obtain ⟨z, hz, hcost⟩ := hcertified least
    exact ⟨z, (isFeasible_relaxation.1 hz).2, hcost⟩
  | pivotLimit =>
    cases h
    exact .inl ⟨pivots, rfl⟩

/-! ## Whole searches -/

section Searches

variable {settings : Settings Rat} {clock : Nat → Nat}

/-- No relaxation that a search asks for sees near ties. -/
def Sharp (model : Model Rat m n) (settings : Settings Rat) (clock : Nat → Nat) : Prop :=
  ∀ box ∈ model.questions settings clock (model.simplexOracle settings.simplex) (),
    ∀ program ∈ (model.linearProblem box).check.toOption, program.Sharp settings.simplex

instance (model : Model Rat m n) (settings : Settings Rat) (clock : Nat → Nat) :
    Decidable (model.Sharp settings clock) :=
  inferInstanceAs (Decidable (∀ box ∈ model.questions _ _ _ _,
    ∀ program ∈ (model.linearProblem box).check.toOption, _))

/-- A relaxation that was asked for sees no near ties. -/
lemma Sharp.relaxation (sharp : model.Sharp settings clock) {bounds : Vector (Interval Rat) n}
    (h : bounds.toArray ∈ model.questions settings clock (model.simplexOracle settings.simplex) ()) :
    (model.relaxation bounds).Sharp settings.simplex := by
  apply sharp bounds.toArray h
  rw [check_linearProblem]
  rfl

/-- The box of a node has an interval for every variable. -/
lemma exists_bounds {node : Node Rat} (left : node.box model.box = .ok (some box))
    (hcuts : ∀ c ∈ node.cuts, c.IsDefined ∧ c.var < n) :
    ∃ bounds : Vector (Interval Rat) n, box = bounds.toArray := by
  obtain ⟨merged, hmerged⟩ := model.exists_merged hcuts
  rw [cutAll_of_box left, Except.ok.injEq] at hmerged
  exact ⟨merged, hmerged⟩

/-- The boxes of all visits have an interval for every variable. -/
lemma Reaches.exists_bounds {σ : Type} {oracle : Oracle σ Rat} {initial state : σ}
    {tree : Tree Rat} {done : List (Visit Rat)} (htol : 0 ≤ settings.integralityTol)
    (reached : model.Reaches settings oracle initial tree state done) :
    ∀ visit ∈ done, ∀ asked ∈ visit.asked,
      ∃ bounds : Vector (Interval Rat) n, asked.1 = bounds.toArray := by
  intro visit hvisit asked hasked
  obtain ⟨_, _, _, _, -, -, visited⟩ := reached.exists_step visit hvisit
  have hcuts := (reached.isGrown htol).defined visit.node (Tree.mem_nodes_of_visit hvisit)
  exact Model.exists_bounds ((visited_of_visit visited).asked_eq asked hasked).1 hcuts

/-- The replies to the recorded questions of a search are relaxations solved without near ties. -/
lemma Reaches.replies {initial : Unit} {tree : Tree Rat} {state : Unit × List (Box Rat)}
    {done : List (Visit Rat)} (htol : 0 ≤ settings.integralityTol)
    (sharp : model.Sharp settings clock)
    (reached : model.Reaches settings (model.simplexOracle settings.simplex).recording
      (initial, []) tree state done)
    (hstate : state.2 ⊆ model.questions settings clock (model.simplexOracle settings.simplex) ()) :
    ∀ visit ∈ done, ∀ asked ∈ visit.asked, ∃ bounds : Vector (Interval Rat) n,
      asked = (bounds.toArray, model.relax settings.simplex bounds.toArray) ∧
      (model.relaxation bounds).Sharp settings.simplex := by
  intro visit hvisit asked hasked
  obtain ⟨bounds, hbounds⟩ := reached.exists_bounds htol visit hvisit asked hasked
  obtain ⟨before, hreply⟩ := reached.reply_eq visit hvisit asked hasked
  have hmem := hstate (reached.asked_mem visit hvisit asked hasked)
  rw [hbounds] at hmem hreply
  exact ⟨bounds, Prod.ext hbounds hreply.symm, sharp.relaxation hmem⟩

/-- A search without near ties that comes to its end has the cheapest integer point of the box, up to the
slack, or there is none. -/
lemma search_report {solution : Solution Rat} (htol : settings.integralityTol = 0)
    (exact : settings.simplex.IsExact) (sharp : model.Sharp settings clock)
    (returned : (model.search settings clock).solution = .ok solution)
    (hlimit : solution.status.isLimit = false) :
    (solution.best = none → ∀ z, model.box.Holds z → ¬ model.IntegerFeasible z) ∧
    ∀ best ∈ solution.best, ∃ x : Vector Rat n, best.objective = Vectors.inner model.cost x ∧
      model.box.Holds x ∧ model.IntegerFeasible x ∧
      ∀ z, model.box.Holds z → model.IntegerFeasible z →
        Vectors.inner model.cost x ≤ Vectors.inner model.cost z + model.slack settings := by
  rw [search, ← solution_recording] at returned
  obtain ⟨last, done, reached, -, hsolution, hstatus⟩ := reaches_of_solution returned
  -- the questions are recorded, so that each reply is known to come without near ties
  have hreplies := reached.replies htol.ge sharp (List.Subset.refl _)
  have hsound : ∀ visit ∈ done, ∀ asked ∈ visit.asked, model.IsSound asked.1 asked.2 := by
    intro visit hvisit asked hasked
    obtain ⟨bounds, rfl, hsharp⟩ := hreplies visit hvisit asked hasked
    exact isSound_relax exact hsharp
  have hfeasible : ∀ visit ∈ done, ∀ asked ∈ visit.asked,
      model.IsFeasibleReply asked.1 asked.2 := by
    intro visit hvisit asked hasked
    obtain ⟨bounds, rfl, hsharp⟩ := hreplies visit hvisit asked hasked
    exact isFeasibleReply_relax exact hsharp
  have hbest : solution.best = last.incumbent.best := by
    rw [hsolution]
    rfl
  have hexhausted : last.pop? = none := by
    rcases hstatus with ⟨hpop, -⟩ | hlimit'
    · exact hpop
    · rw [hlimit] at hlimit'
      cases hlimit'
  have hwithin : ∀ z, model.box.Holds z → model.IntegerFeasible z →
      ∃ best ∈ solution.best, best.objective ≤
        Vectors.inner model.cost z + model.slack settings := by
    intro z hbox hz
    rw [hbest]
    exact reached.within_of_exhausted htol.ge hsound hexhausted hbox hz
  constructor
  · intro hnone z hbox hz
    obtain ⟨best, hin, -⟩ := hwithin z hbox hz
    rw [hnone] at hin
    cases hin
  · intro best hin
    obtain ⟨x, -, hobjective, hx, hinteger⟩ :=
      reached.incumbent_feasible htol hfeasible best (hbest ▸ hin)
    refine ⟨x, hobjective, hx, hinteger, ?_⟩
    intro z hbox hz
    obtain ⟨best', hin', hle⟩ := hwithin z hbox hz
    obtain rfl := Option.mem_unique hin hin'
    rw [← hobjective]
    exact hle

/-- A search without near ties whose costs are bounded from below fails only for a fault, the limit of
pivots or a point of the wrong length. -/
lemma search_error {error : Error} (htol : settings.integralityTol = 0)
    (exact : settings.simplex.IsExact) (sharp : model.Sharp settings clock)
    (hcost : ∃ least, ∀ z, model.box.Holds z → least ≤ Vectors.inner model.cost z)
    (failed : (model.search settings clock).solution = .error error) :
    (∃ fault, error = .fault fault) ∨ (∃ pivots, error = .oracle (.pivotLimit pivots)) ∨
      ∃ entries, error = .oracle (.wrongLength entries n) := by
  rw [search, ← solution_recording] at failed
  unfold SearchRun.solution at failed
  split at failed
  · cases failed
  · rename_i breakdown hending
    cases failed
    obtain ⟨last, before, done, node, rest, reached, popped, hvisit, -⟩ :=
      explore_failed .start hending
    have hcuts := (reached.isGrown htol.ge).defined node (Tree.pops_of_pop popped).mem
    rcases visit_error hvisit with ⟨fault, hfault⟩ | ⟨box, reply, left, replied, hcause⟩
    · exact .inl ⟨fault, hfault⟩
    · obtain ⟨bounds, rfl⟩ := Model.exists_bounds left hcuts
      -- the question that failed is the last one recorded
      have hkept : bounds.toArray :: before.2 =
          model.questions settings clock (model.simplexOracle settings.simplex) () :=
        congrArg (·.2.2) replied
      have hmem : bounds.toArray ∈
          model.questions settings clock (model.simplexOracle settings.simplex) () := by
        rw [← hkept]
        exact List.mem_cons_self
      have hreply : model.relax settings.simplex bounds.toArray = reply := congrArg (·.1) replied
      rcases hcause with hanswer | ⟨relaxation, hjudge⟩
      · rw [← hreply] at hanswer
        rcases relax_error exact (sharp.relaxation hmem) hanswer with
          ⟨pivots, hpivots⟩ | ⟨-, hunbounded⟩
        · exact .inr (.inl ⟨pivots, hpivots⟩)
        · obtain ⟨least, hleast⟩ := hcost
          obtain ⟨z, hz, hlt⟩ := hunbounded least
          exact absurd (hleast z (holds_of_box left hcuts hz)) (not_le.2 hlt)
      · rcases judge_error hjudge with ⟨entries, h⟩ | ⟨fault, h⟩
        · exact .inr (.inr ⟨entries, h⟩)
        · exact .inl ⟨fault, h⟩

end Searches

end IntegerProgram.Model
