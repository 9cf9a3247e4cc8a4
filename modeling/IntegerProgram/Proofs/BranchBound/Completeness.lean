import Mathlib
import IntegerProgram.Proofs.BranchBound.Partition
import IntegerProgram.Proofs.Matrix
import IntegerProgram.Proofs.Rounding

/-!
# Completeness of branch and bound

Over exact scalars a complete search with a sound oracle loses no integer point by more than its
tolerances. Every integer point of the box that is no longer pending is paid for by the incumbent:

* `Model.Visited.pays`: a node that is closed is paid for when it is closed.
* `Model.Reaches.pays`: what is paid for once stays paid for.
* `Model.searchWith_complete`: a search that ends with nothing pending has the best objective, up to
  `Model.slack`, or the model has no integer point.
-/

namespace IntegerProgram

variable {σ : Type} {m n : Nat}

/-! ## Incumbents -/

namespace Incumbent

variable {incumbent : Incumbent Rat} {c : Candidate Rat}

/-- An incumbent costs no more than a bound. -/
def Within (incumbent : Incumbent Rat) (bound : Rat) : Prop :=
  ∃ best ∈ incumbent.best, best.objective ≤ bound

/-- An incumbent within a bound is within a larger one. -/
lemma Within.mono {a b : Rat} (h : incumbent.Within a) (hab : a ≤ b) : incumbent.Within b := by
  obtain ⟨best, hbest, hle⟩ := h
  exact ⟨best, hbest, hle.trans hab⟩

/-- A candidate is an improvement if it is strictly better than the incumbent there is. -/
lemma isImprovedBy_iff {objective : Rat} : incumbent.isImprovedBy objective = true ↔
    ∀ best ∈ incumbent.best, objective < best.objective := by
  cases hbest : incumbent.best <;> simp [isImprovedBy, objective?, Scalar.isBelow, hbest]

/-- An objective is dominated if there is an incumbent that it does not beat by the tolerance. -/
lemma dominates_iff {objective tol : Rat} : incumbent.dominates objective tol = true ↔
    incumbent.Within (objective + tol) := by
  cases hbest : incumbent.best <;>
    simp [dominates, Within, objective?, Scalar.reaches, hbest]

/-- An offer is taken, or the incumbent is at least as good. -/
lemma offer_cases (incumbent : Incumbent Rat) (c : Candidate Rat) :
    (incumbent.offer c).best = some c ∧ (∀ best ∈ incumbent.best, c.objective < best.objective) ∨
    incumbent.offer c = incumbent ∧ incumbent.Within c.objective := by
  unfold offer
  by_cases himproved : incumbent.isImprovedBy c.objective = true
  · rw [if_pos himproved]
    exact .inl ⟨rfl, isImprovedBy_iff.1 himproved⟩
  · rw [if_neg himproved]
    rw [isImprovedBy_iff] at himproved
    push Not at himproved
    exact .inr ⟨rfl, himproved⟩

/-- After an offer the incumbent costs no more than the offer. -/
lemma within_offer (incumbent : Incumbent Rat) (c : Candidate Rat) :
    (incumbent.offer c).Within c.objective := by
  rcases offer_cases incumbent c with ⟨htaken, -⟩ | ⟨hkept, hbest⟩
  · exact ⟨c, htaken, le_rfl⟩
  · rw [hkept]
    exact hbest

/-- After an offer the incumbent costs no more than before. -/
lemma Within.offer {bound : Rat} (h : incumbent.Within bound) (c : Candidate Rat) :
    (incumbent.offer c).Within bound := by
  rcases offer_cases incumbent c with ⟨htaken, hbetter⟩ | ⟨hkept, -⟩
  · obtain ⟨best, hbest, hle⟩ := h
    exact ⟨c, htaken, (hbetter best hbest).le.trans hle⟩
  · rw [hkept]
    exact h

end Incumbent

namespace Model

/-- A point that solves the equations with whole integer variables. -/
structure IntegerFeasible (model : Model Rat m n) (z : Vector Rat n) : Prop where
  solves : model.matrix.Solves z model.target
  integral : model.Integral z

/-- A reply about a box is sound: it calls the box infeasible only if it has no integer point, and an
optimum is the cost of a point and not above the cost of any integer point of the box. -/
def IsSound (model : Model Rat m n) (box : Box Rat) (reply : Reply Rat) : Prop :=
  match reply.answer with
  | .ok .infeasible => ∀ z, model.IntegerFeasible z → ¬ box.Holds z
  | .ok (.optimal objective values) => ∃ x : Vector Rat n, values = x.toArray ∧
      objective = Vectors.inner model.cost x ∧
      ∀ z, model.IntegerFeasible z → box.Holds z → objective ≤ Vectors.inner model.cost z
  | .error _ => True

/-- The point of a reply about a box solves the equations and lies in the box. -/
def IsFeasibleReply (model : Model Rat m n) (box : Box Rat) (reply : Reply Rat) : Prop :=
  ∀ objective (x : Vector Rat n), reply.answer = .ok (.optimal objective x.toArray) →
    model.matrix.Solves x model.target ∧ box.Holds x

/-- A visit proposes a candidate: the reply about the box of its node is a point whose integer variables are
near the whole numbers, and the candidate is the rounded point with its cost. -/
def Proposes (model : Model Rat m n) (settings : Settings Rat) (visit : Visit Rat)
    (candidate : Candidate Rat) : Prop :=
  ∃ box reply objective, ∃ x : Vector Rat n, visit.asked = some (box, reply) ∧
    visit.node.box model.box = .ok (some box) ∧
    reply.answer = .ok (.optimal objective x.toArray) ∧
    (∀ i ∈ model.integers, Scalar.fractionality (x.get i) ≤ settings.integralityTol) ∧
    candidate = ⟨Vectors.inner model.cost (Vectors.rounded x model.integers),
      (Vectors.rounded x model.integers).toArray⟩

/-- What the tolerances of a search may cost: the pruning tolerance, or the cost of rounding all integer
variables by the integrality tolerance. -/
def slack (model : Model Rat m n) (settings : Settings Rat) : Rat :=
  max settings.pruneTol
    (settings.integralityTol * ∑ i ∈ model.integers.toFinset, |model.cost.get i|)

variable {model : Model Rat m n} {settings : Settings Rat} {oracle : Oracle σ Rat}
  {node : Node Rat} {tree rest : Tree Rat} {state state' : σ} {visit : Visit Rat}
  {z : Vector Rat n} {initial : σ} {done : List (Visit Rat)}

/-- A candidate costs no more than its relaxation and the rounding. -/
lemma objective_le_of_ofPoint {x : Vector Rat n} {c : Candidate Rat}
    (hnear : ∀ i ∈ model.integers, ¬ settings.integralityTol < Scalar.fractionality (x.get i))
    (rounded : Candidate.ofPoint x.toArray model.integerIndices model.cost.toArray = .ok c) :
    c.objective ≤ Vectors.inner model.cost x + model.slack settings := by
  unfold integerIndices at rounded
  rw [Candidate.ofPoint_eq, Except.ok.injEq] at rounded
  subst rounded
  have hbound : |Vectors.inner model.cost (Vectors.rounded x model.integers) - Vectors.inner model.cost x| ≤
      settings.integralityTol * ∑ i ∈ model.integers.toFinset, |model.cost.get i| :=
    Vectors.abs_inner_rounded_sub_le_of_near fun i hi => not_lt.1 (hnear i hi)
  have hslack : settings.integralityTol * ∑ i ∈ model.integers.toFinset, |model.cost.get i| ≤
      model.slack settings := le_max_right _ _
  have habs := le_abs_self
    (Vectors.inner model.cost (Vectors.rounded x model.integers) - Vectors.inner model.cost x)
  show Vectors.inner model.cost (Vectors.rounded x model.integers) ≤ _
  linarith

/-- The box asked about lies in the box of the model. -/
lemma holds_of_box {box : Box Rat} (left : node.box model.box = .ok (some box))
    (hcuts : ∀ c ∈ node.cuts, c.IsDefined ∧ c.var < n) (h : box.Holds z) : model.box.Holds z := by
  have hdefined : model.box.IsDefined := fun _ _ => ⟨rfl, fun _ _ => rfl⟩
  exact (admits_of_box left hcuts (.inr hdefined) h).1

/-- A node that is closed is paid for: the incumbent then costs no more than any integer point of the
node, up to the slack. -/
lemma Visited.pays (visited : model.Visited settings oracle node rest state visit state')
    (hcuts : ∀ c ∈ node.cuts, c.IsDefined ∧ c.var < n)
    (sound : ∀ asked ∈ visit.asked, model.IsSound asked.1 asked.2)
    (hz : model.IntegerFeasible z) (closed : visit.verdict.fate ≠ .branched)
    (hcovers : node.Covers model.box z) :
    visit.after.incumbent.Within (Vectors.inner model.cost z + model.slack settings) := by
  cases visited with
  | emptyDomain void => exact absurd hcovers (not_covers_of_void hcuts void)
  | @asked box reply relaxation verdict _ left replied answered judged =>
    have hbox : box.Holds z := by
      obtain ⟨merged, hmerged, hholds⟩ := hcovers
      rw [cutAll_of_box left] at hmerged
      cases hmerged
      exact hholds
    have hsound : model.IsSound box reply := sound (box, reply) rfl
    unfold IsSound at hsound
    rw [answered] at hsound
    cases judged with
    | infeasible => exact absurd hbox (hsound z hz)
    | @dominated objective x reached =>
      -- no point of the box costs less than the relaxation, and that is dominated
      obtain ⟨-, -, -, hbound⟩ := hsound
      have hobjective := hbound z hz hbox
      have hprune : settings.pruneTol ≤ model.slack settings := le_max_left _ _
      have hwithin := Incumbent.dominates_iff.1 reached
      exact hwithin.mono (by linarith)
    | split => exact absurd rfl closed
    | @candidate objective x c missed integral rounded =>
      -- the candidate costs what the relaxation does, up to the rounding, and no incumbent is worse
      obtain ⟨x', hx, hcost, hbound⟩ := hsound
      obtain rfl := Vector.toArray_inj.1 hx
      have hobjective := hbound z hz hbox
      have hround := objective_le_of_ofPoint (BranchingRule.select_none integral) rounded
      exact (rest.incumbent.within_offer c).mono (by linarith)

/-- A visit never makes the incumbent worse. -/
lemma Visited.within_after (visited : model.Visited settings oracle node rest state visit state')
    (popped : tree.Pops node rest) {bound : Rat} (h : tree.incumbent.Within bound) :
    visit.after.incumbent.Within bound := by
  rw [← popped.incumbent, ← visited.tree_eq] at h
  cases hverdict : visit.verdict with
  | candidate c =>
    unfold Visit.after
    rw [hverdict]
    exact h.offer c
  | _ =>
    unfold Visit.after
    rw [hverdict]
    exact h

/-- What is paid for once stays paid for. -/
lemma Reaches.pays (htol : 0 ≤ settings.integralityTol)
    (reached : model.Reaches settings oracle initial tree state done)
    (sound : ∀ visit ∈ done, ∀ asked ∈ visit.asked, model.IsSound asked.1 asked.2)
    (hz : model.IntegerFeasible z) :
    ∀ visit ∈ done, visit.verdict.fate ≠ .branched → visit.node.Covers model.box z →
      tree.incumbent.Within (Vectors.inner model.cost z + model.slack settings) := by
  induction reached with
  | start =>
    intro v hv
    cases hv
  | step reached popped visited ih =>
    have hcuts := (reached.isGrown htol).defined _ (Tree.pops_of_pop popped).mem
    have visited := visited_of_visit visited
    intro v hv closed hcovers
    rcases List.mem_cons.1 hv with rfl | hv
    · rw [visited.node_eq] at hcovers
      exact visited.pays hcuts (sound v List.mem_cons_self) hz closed hcovers
    · have hbefore := ih (fun w hw => sound w (List.mem_cons_of_mem _ hw)) v hv closed hcovers
      exact visited.within_after (Tree.pops_of_pop popped) hbefore

/-- Where nothing is pending, every integer point of the box is paid for. -/
lemma Reaches.within_of_exhausted (htol : 0 ≤ settings.integralityTol)
    (reached : model.Reaches settings oracle initial tree state done)
    (sound : ∀ visit ∈ done, ∀ asked ∈ visit.asked, model.IsSound asked.1 asked.2)
    (exhausted : tree.pop? = none) (hbox : model.box.Holds z) (hz : model.IntegerFeasible z) :
    tree.incumbent.Within (Vectors.inner model.cost z + model.slack settings) := by
  have hcount := reached.countP_leaves htol hbox hz.integral
  obtain ⟨leaf, hleaf, hcovers⟩ := List.countP_pos_iff.1 (hcount ▸ Nat.one_pos)
  unfold Tree.leaves at hleaf
  rw [Tree.pending_of_pop_none exhausted, List.nil_append] at hleaf
  obtain ⟨visit, hvisit, rfl⟩ := List.mem_map.1 hleaf
  obtain ⟨hdone, hclosed⟩ := List.mem_filter.1 hvisit
  exact reached.pays htol sound hz visit hdone (of_decide_eq_true hclosed)
    (of_decide_eq_true hcovers)

/-- The incumbent was proposed by one of the visits. -/
lemma Reaches.proposed (reached : model.Reaches settings oracle initial tree state done) :
    ∀ best ∈ tree.incumbent.best, ∃ visit ∈ done, model.Proposes settings visit best := by
  intro best hbest
  obtain ⟨visit, hvisit, ⟨box, reply, objective, x, hasked, left, answered, integral, rounded⟩, -⟩ :=
    reached.found best hbest
  unfold integerIndices at rounded
  rw [Candidate.ofPoint_eq, Except.ok.injEq] at rounded
  refine ⟨visit, hvisit, box, reply, objective, x, hasked, left, answered, ?_, rounded.symm⟩
  intro i hi
  exact not_lt.1 (BranchingRule.select_none integral i hi)

/-- If nothing is rounded and the oracle's points are feasible, the incumbent is an integer point of the
box with its cost. -/
lemma Reaches.incumbent_feasible (htol : settings.integralityTol = 0)
    (reached : model.Reaches settings oracle initial tree state done)
    (feasible : ∀ visit ∈ done, ∀ asked ∈ visit.asked, model.IsFeasibleReply asked.1 asked.2) :
    ∀ best ∈ tree.incumbent.best, ∃ x : Vector Rat n, best.x = x.toArray ∧
      best.objective = Vectors.inner model.cost x ∧ model.box.Holds x ∧
      model.IntegerFeasible x := by
  intro best hbest
  obtain ⟨visit, hvisit, box, reply, objective, x, hasked, left, answered, hnear, rfl⟩ :=
    reached.proposed best hbest
  have hwhole : ∀ i ∈ model.integers, Scalar.IsWhole (x.get i) := by
    rw [htol] at hnear
    exact hnear
  have hcuts := (reached.isGrown htol.ge).defined visit.node (Tree.mem_nodes_of_visit hvisit)
  obtain ⟨hsolves, hholds⟩ := feasible visit hvisit (box, reply) hasked objective x answered
  rw [Vectors.rounded_of_isWhole hwhole]
  exact ⟨x, rfl, rfl, holds_of_box left hcuts hholds, hsolves, hwhole⟩

/-- Branch and bound is complete for every sound oracle: if the search answers that there is no solution,
the model has no integer point in its box, and an optimum costs at most the slack of the tolerances more
than any integer point of the box. If nothing is rounded and the points of the oracle are feasible, a
returned point is an integer point of the box. -/
theorem searchWith_complete {clock : Nat → Nat} {solution : Solution Rat}
    (htol : 0 ≤ settings.integralityTol)
    (sound : ∀ visit ∈ (model.searchWith settings clock oracle initial).visits,
      ∀ asked ∈ visit.asked, model.IsSound asked.1 asked.2)
    (returned : (model.searchWith settings clock oracle initial).solution = .ok solution) :
    (solution.status = .infeasible → ∀ z, model.box.Holds z → ¬ model.IntegerFeasible z) ∧
    (solution.status = .optimal → ∃ best ∈ solution.best, ∀ z, model.box.Holds z →
      model.IntegerFeasible z → best.objective ≤ Vectors.inner model.cost z + model.slack settings) ∧
    (settings.integralityTol = 0 →
      (∀ visit ∈ (model.searchWith settings clock oracle initial).visits,
        ∀ asked ∈ visit.asked, model.IsFeasibleReply asked.1 asked.2) →
      ∀ best ∈ solution.best, ∃ x : Vector Rat n, best.x = x.toArray ∧ model.box.Holds x ∧
        model.IntegerFeasible x) := by
  obtain ⟨last, done, reached, hvisits, hsolution, hstatus⟩ := reaches_of_solution returned
  have hmem : ∀ visit, visit ∈ done ↔
      visit ∈ (model.searchWith settings clock oracle initial).visits := by
    intro visit
    rw [hvisits, List.mem_reverse]
  have hbest : solution.best = last.incumbent.best := by
    rw [hsolution]
    rfl
  have hsound : ∀ visit ∈ done, ∀ asked ∈ visit.asked, model.IsSound asked.1 asked.2 :=
    fun visit h => sound visit ((hmem visit).1 h)
  refine ⟨?_, ?_, ?_⟩
  · intro hinfeasible z hbox hz
    rcases hstatus with ⟨hpop, hexhausted⟩ | hlimit
    · obtain ⟨best, hin, -⟩ := reached.within_of_exhausted htol hsound hpop hbox hz
      rw [hinfeasible] at hexhausted
      unfold Tree.exhaustedStatus at hexhausted
      rw [hin] at hexhausted
      cases hexhausted
    · rw [hinfeasible] at hlimit
      cases hlimit
  · intro hoptimal
    rcases hstatus with ⟨hpop, hexhausted⟩ | hlimit
    · rw [hoptimal] at hexhausted
      unfold Tree.exhaustedStatus at hexhausted
      cases hincumbent : last.incumbent.best with
      | none =>
        rw [hincumbent] at hexhausted
        cases hexhausted
      | some best =>
        refine ⟨best, hbest.trans hincumbent, ?_⟩
        intro z hbox hz
        obtain ⟨best', hin, hle⟩ := reached.within_of_exhausted htol hsound hpop hbox hz
        rw [hincumbent] at hin
        cases hin
        exact hle
    · rw [hoptimal] at hlimit
      cases hlimit
  · intro hzero feasible best hin
    rw [hbest] at hin
    obtain ⟨x, hx, -, hbox, hz⟩ := reached.incumbent_feasible hzero
      (fun visit h => feasible visit ((hmem visit).1 h)) best hin
    exact ⟨x, hx, hbox, hz⟩

/-- One integer variable from one half on, at a cost of one. -/
def half : Model Rat 0 1 where
  matrix := .ofRows #v[]
  target := #v[]
  cost := #v[1]
  bounds := #v[.atLeast (1 / 2)]
  integers := [0]
  ascending := List.pairwise_singleton _ _

/-- The oracle that answers with the lower bound of the first variable and counts its answers. -/
def lowest : Oracle Nat Rat := fun box count =>
  let bound := box[0]?.elim 0 (·.lower)
  (⟨.ok (.optimal bound #[bound]), []⟩, count + 1)

/-- The lower bound is the optimum of its box. -/
lemma lowest_isSound (box : Box Rat) (count : Nat) : half.IsSound box (lowest box count).1 := by
  refine ⟨#v[box[0]?.elim 0 (·.lower)], rfl, ?_, ?_⟩
  · simp [Vectors.inner, half, Vectors.get_eq]
  · intro z _ hholds
    obtain ⟨i, hi, hin, -⟩ := hholds 0
    have hi : box[0]? = some i := hi
    rw [hi]
    simpa [Vectors.inner, half, Vectors.get_eq] using hin

/-- A search that has to split: one half is rounded neither down nor up, and the optimum is one. -/
theorem searchWith_complete_half : ∃ solution,
    (half.searchWith .standard id lowest 0).solution = .ok solution ∧
    ∃ best ∈ solution.best, best = ⟨1, #[1]⟩ ∧ ∀ z, half.box.Holds z → half.IntegerFeasible z →
      best.objective ≤ Vectors.inner half.cost z + half.slack .standard := by
  have returned : (half.searchWith .standard id lowest 0).solution =
      .ok ⟨.optimal, some ⟨1, #[1]⟩, 3, 1⟩ := by
    decide +kernel
  obtain ⟨_, done, reached, hvisits, -⟩ := reaches_of_solution returned
  have sound : ∀ visit ∈ (half.searchWith .standard id lowest 0).visits,
      ∀ asked ∈ visit.asked, half.IsSound asked.1 asked.2 := by
    intro visit hvisit asked hasked
    rw [hvisits, List.mem_reverse] at hvisit
    obtain ⟨before, hreply⟩ := reached.reply_eq visit hvisit asked hasked
    rw [← hreply]
    exact lowest_isSound asked.1 before
  obtain ⟨best, hbest, hle⟩ :=
    (searchWith_complete (by decide +kernel) sound returned).2.1 rfl
  exact ⟨_, returned, best, hbest, (Option.some.inj hbest).symm, hle⟩

end Model

end IntegerProgram
