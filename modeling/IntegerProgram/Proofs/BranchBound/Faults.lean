import Mathlib
import IntegerProgram.Proofs.BranchBound.Partition
import IntegerProgram.Proofs.LinearProgram.InPlace

/-!
# Freedom from faults

No search of a model faults, whatever its oracle answers and whatever the operations of the number system
return:

* `Model.isMadeFrom_of_make`: what the check of a model establishes.
* `Model.Reaches.cuts_lt`: the cuts of a node that is visited are at variables of the model.
* `Model.Reaches.isSteady`: so every visit comes to a verdict, or passes on an error of the oracle, or reports
  that an answer has the wrong length.
* `Model.oracleInPlace_eq`: the simplex method on unchecked arrays, which would pass its faults on, is the
  simplex oracle.
* `Model.search_ofRelaxation`: a search with it fails only for the relaxations' own reasons, among which there
  is no wrong length.
-/

namespace IntegerProgram

variable {σ α : Type} [Scalar α] {m n : Nat}

/-! ## Points of the right length -/

namespace Model

variable {model : Model α m n} {settings : Settings α} {oracle : Oracle σ α} {node : Node α}
  {tree rest : Tree α} {state state' : σ} {visit : Visit α}

lemma exists_judgePoint (model : Model α m n) (settings : Settings α) (x : Vector α n) :
    ∃ verdict, model.judgePoint settings x.toArray = .ok verdict := by
  obtain ⟨choice, chosen⟩ := settings.branchingRule.exists_select model x settings.integralityTol
  unfold judgePoint
  rw [chosen, Fault.ok_bind]
  cases choice with
  | some decision => exact ⟨_, rfl⟩
  | none =>
    unfold integerIndices
    rw [Candidate.ofPoint_toArray]
    exact ⟨_, rfl⟩

lemma exists_judge (model : Model α m n) (settings : Settings α) (incumbent : Incumbent α) (objective : α)
    (x : Vector α n) : ∃ verdict, model.judge settings incumbent (.optimal objective x.toArray) = .ok verdict := by
  obtain ⟨verdict, hverdict⟩ := model.exists_judgePoint settings x
  simp only [judge, Vector.size_toArray, ne_eq, not_true_eq_false, if_false, hverdict]
  split
  · exact ⟨_, rfl⟩
  · exact ⟨verdict, rfl⟩

/-! ## Nodes -/

/-- The cuts of a node leave no interval of some variable, or an interval of every variable. -/
lemma box_cases (model : Model α m n) (hcuts : ∀ c ∈ node.cuts, c.var < n) :
    node.box model.box = .ok none ∨
      ∃ box : Vector (Interval α) n, node.box model.box = .ok (some box.toArray) := by
  have hsize : model.box.size = n := model.bounds.size_toArray
  have hvars : ∀ c ∈ node.cuts, c.var < model.box.size := fun c hc => hsize.symm ▸ hcuts c hc
  obtain ⟨merged, hmerged, hsize'⟩ := Box.exists_cutAll hvars
  unfold Node.box
  rw [hmerged, Fault.ok_bind]
  cases merged.isEmpty with
  | true => exact .inl rfl
  | false => exact .inr ⟨⟨merged, hsize'.trans hsize⟩, rfl⟩

/-- A node that is visited is cut at variables of the model. -/
lemma Reaches.cuts_lt {initial : σ} {done : List (Visit α)}
    (reached : model.Reaches settings oracle initial tree state done)
    (popped : tree.pop? = some (node, rest)) : ∀ c ∈ node.cuts, c.var < n :=
  reached.forall_cuts (fun i _ _ _ => ⟨i.isLt, i.isLt⟩) node (Tree.pops_of_pop popped).mem

/-! ## Visits -/

end Model

/-- The error that a reply is for a model of `n` variables: its own, or that its point has the wrong length. -/
def Reply.error? (n : Nat) (reply : Reply α) : Option Error :=
  match reply.answer with
  | .error error => some error
  | .ok .infeasible => none
  | .ok (.optimal _ values) =>
    if values.size = n then none else some (.oracle (.wrongLength values.size n))

/-- The error of a visit without a verdict. -/
def Breakdown.error? (result : Except (Breakdown α) (Visit α)) : Option Error :=
  match result with
  | .error breakdown => some breakdown.error
  | .ok _ => none

namespace Model

/-- The visit of a node finds an empty box and comes to a verdict, or it asks about an interval for every
variable and has the error that the reply is, if any. -/
def IsSteady (model : Model α m n) (settings : Settings α) (oracle : Oracle σ α) (node : Node α) (tree : Tree α)
    (state : σ) : Prop :=
  (node.box model.box = .ok none ∧
    Breakdown.error? (model.visit settings oracle node tree state).1 = none) ∨
  ∃ box : Vector (Interval α) n, node.box model.box = .ok (some box.toArray) ∧
    Breakdown.error? (model.visit settings oracle node tree state).1 =
      (oracle box.toArray state).1.error? n

variable {model : Model α m n} {settings : Settings α} {oracle : Oracle σ α} {node : Node α}
  {tree rest : Tree α} {state state' initial : σ} {done : List (Visit α)} {clock : Nat → Nat}

lemma error?_visit {box : Vector (Interval α) n} (left : node.box model.box = .ok (some box.toArray)) :
    Breakdown.error? (model.visit settings oracle node tree state).1 =
      (oracle box.toArray state).1.error? n := by
  unfold Model.visit Reply.error?
  simp only [left]
  generalize (oracle box.toArray state).1 = reply
  cases hanswer : reply.answer with
  | error error => rfl
  | ok relaxation =>
    cases relaxation with
    | infeasible => rfl
    | optimal objective values =>
      by_cases hsize : values.size = n
      · obtain ⟨verdict, hverdict⟩ := model.exists_judge settings tree.incumbent objective ⟨values, hsize⟩
        simp only [Except.bind, hverdict, hsize, if_true]
        rfl
      · simp only [Except.bind, judge, hsize, ne_eq, not_false_eq_true, if_true, if_false]
        rfl

lemma isSteady_of_cuts (hcuts : ∀ c ∈ node.cuts, c.var < n) :
    model.IsSteady settings oracle node tree state := by
  rcases model.box_cases hcuts with void | ⟨box, left⟩
  · refine .inl ⟨void, ?_⟩
    unfold Model.visit
    rw [void]
    rfl
  · exact .inr ⟨box, left, error?_visit left⟩

/-- Every visit of a search is steady. -/
lemma Reaches.isSteady (reached : model.Reaches settings oracle initial tree state done)
    (popped : tree.pop? = some (node, rest)) : model.IsSteady settings oracle node rest state :=
  isSteady_of_cuts (reached.cuts_lt popped)

/-- The questions of all visits are about every variable, and no reply to them is an error. -/
lemma Reaches.error?_asked (reached : model.Reaches settings oracle initial tree state done) :
    ∀ visit ∈ done, ∀ asked ∈ visit.asked, asked.1.size = n ∧ asked.2.error? n = none := by
  intro visit hvisit asked hasked
  obtain ⟨tree, before, _, _, earlier, popped, visited⟩ := reached.exists_step visit hvisit
  obtain ⟨left, replied⟩ := (visited_of_visit visited).asked_eq asked hasked
  rcases earlier.isSteady popped with ⟨void, -⟩ | ⟨box, left', herror⟩
  · rw [left] at void
    cases void
  · rw [left, Except.ok.injEq, Option.some.injEq] at left'
    rw [← left', replied, visited] at herror
    exact ⟨left' ▸ box.size_toArray, herror.symm⟩

/-- A visit leaves the oracle in the state after its question. -/
lemma snd_visit {box : Box α}
    (left : node.box model.box = .ok (some box)) :
    (model.visit settings oracle node tree state).2 = (oracle box state).2 := by
  unfold Model.visit
  simp only [left]
  split <;> rfl

/-- A search fails only with the error of a reply to one of its questions. -/
lemma searchWith_failed {breakdown : Breakdown α}
    (failed : (model.searchWith settings clock oracle initial).ending = .failed breakdown) :
    ∃ (box : Vector (Interval α) n) (before : σ), box.toArray ∈ model.questions settings clock oracle initial ∧
      (oracle box.toArray before).1.error? n = some breakdown.error := by
  rw [← ending_recording] at failed
  obtain ⟨last, before, visits, node, rest, reached, popped, broken, -⟩ := explore_failed .start failed
  rcases reached.isSteady popped with ⟨-, herror⟩ | ⟨box, left, herror⟩
  · rw [broken] at herror
    cases herror
  · rw [broken] at herror
    have hstate : (model.visit settings oracle.recording node rest before).2 =
        (oracle.recording box.toArray before).2 := snd_visit left
    rw [broken] at hstate
    have hquestions : model.questions settings clock oracle initial = box.toArray :: before.2 :=
      congrArg Prod.snd hstate
    exact ⟨box, before.1, hquestions ▸ List.mem_cons_self, herror.symm⟩

/-! ## The simplex oracle -/

end Model

/-- Whether a defect is one of lengths. -/
def Defect.isDimension : Defect → Bool
  | costLength .. | rhsLength .. | boundCount .. => true
  | lowerNotFinite .. | upperUndefined .. | dataNotFinite => false

/-- The reasons for which the simplex method does not solve a relaxation. -/
inductive Error.OfRelaxation : Error → Prop
  | unbounded : OfRelaxation (.oracle .unbounded)
  | pivotLimit (pivots : Nat) : OfRelaxation (.oracle (.pivotLimit pivots))
  | infeasibilityUnbounded : OfRelaxation (.linear .infeasibilityUnbounded)
  | invalid {defect : Defect} (values : defect.isDimension = false) : OfRelaxation (.linear (.invalid defect))

lemma LinearProblem.isDimension_boundDefect? {var : Nat} {i : Interval α} {defect : Defect}
    (h : boundDefect? var i = some defect) : defect.isDimension = false := by
  unfold boundDefect? at h
  split at h
  · cases h
    rfl
  · split at h
    · cases h
      rfl
    · cases h

/-- A stated program of the right lengths has no defect of lengths. -/
lemma LinearProblem.isDimension_check {p : LinearProblem α m n} {defect : Defect} (hcost : p.cost.size = n)
    (hrhs : p.rhs.size = m) (hbounds : p.bounds.size = n) (h : p.check = .error defect) :
    defect.isDimension = false := by
  unfold check at h
  rw [dif_pos hcost, dif_pos hrhs, dif_pos hbounds] at h
  split at h
  · rename_i found
    cases h
    obtain ⟨⟨i, j⟩, -, hdefect⟩ := List.exists_of_findSome?_eq_some found
    exact isDimension_boundDefect? hdefect
  · split at h
    · cases h
    · cases h
      rfl

namespace LinearProgram

lemma exists_solveFrom (p : LinearProgram α m n) (settings : SimplexSettings α) (spent : Nat)
    (t : Tableau α p.rowCount p.columnCount) : ∃ outcome, (p.solveFrom settings spent t).result = .ok outcome := by
  simp only [solveFrom]
  split
  · exact ⟨_, rfl⟩
  · split <;> exact ⟨_, rfl⟩

/-- The method itself fails for one reason only. -/
lemma solve_cases (p : LinearProgram α m n) (settings : SimplexSettings α) :
    (p.solve settings).result = .error .infeasibilityUnbounded ∨
      ∃ outcome, (p.solve settings).result = .ok outcome := by
  simp only [solve]
  split
  · exact .inr ⟨_, rfl⟩
  · split
    · exact .inl rfl
    · exact .inr ⟨_, rfl⟩
    · exact .inr (p.exists_solveFrom settings _ _)

end LinearProgram

namespace Model

/-- The relaxation over a box, solved in place; a fault is passed on. -/
def relaxInPlace (model : Model α m n) (settings : SimplexSettings α) (box : Box α) : Reply α :=
  match (model.linearProblem box).solveInPlace settings with
  | .error fault => ⟨.error (.fault fault), []⟩
  | .ok report =>
    { answer :=
        match report.result with
        | .ok outcome => Relaxation.ofOutcome report.iterations outcome
        | .error error => .error (.linear error)
      journal := report.journal }

/-- The oracle that solves every relaxation in place. -/
def oracleInPlace (model : Model α m n) (settings : SimplexSettings α) : Oracle Unit α :=
  fun box state => (model.relaxInPlace settings box, state)

lemma oracleInPlace_eq (model : Model α m n) (settings : SimplexSettings α) :
    model.oracleInPlace settings = model.simplexOracle settings := by
  funext box state
  unfold oracleInPlace relaxInPlace
  cases hsolve : (model.linearProblem box).solveInPlace settings with
  | error fault =>
    rw [LinearProblem.solveInPlace_eq] at hsolve
    cases hsolve
  | ok report =>
    rw [LinearProblem.solveInPlace_eq] at hsolve
    cases hsolve
    rfl

variable {model : Model α m n} {settings : Settings α} {clock : Nat → Nat}

lemma isDimension_linearProblem {defect : Defect} (box : Vector (Interval α) n)
    (h : (model.linearProblem box.toArray).check = .error defect) : defect.isDimension = false :=
  LinearProblem.isDimension_check model.cost.size_toArray model.target.size_toArray box.size_toArray h

lemma relax_ofRelaxation {settings : SimplexSettings α} {error : Error} (box : Vector (Interval α) n)
    (h : (model.relax settings box.toArray).error? n = some error) : error.OfRelaxation := by
  unfold Reply.error? relax LinearProblem.solve at h
  cases hcheck : (model.linearProblem box.toArray).check with
  | error defect =>
    simp only [hcheck, Option.some.injEq] at h
    rw [← h]
    exact .invalid (isDimension_linearProblem box hcheck)
  | ok program =>
    rcases program.solve_cases settings with hresult | ⟨outcome, hresult⟩
    · simp only [hcheck, hresult, Option.some.injEq] at h
      rw [← h]
      exact .infeasibilityUnbounded
    · simp only [hcheck, hresult] at h
      cases outcome with
      | optimal x objective => simp [Relaxation.ofOutcome] at h
      | infeasible => cases h
      | unbounded =>
        cases h
        exact .unbounded
      | pivotLimit =>
        cases h
        exact .pivotLimit _

/-- A search with the simplex oracle fails only because a relaxation is not solved. -/
lemma search_ofRelaxation {error : Error} (failed : (model.search settings clock).solution = .error error) :
    error.OfRelaxation := by
  unfold SearchRun.solution at failed
  split at failed
  · cases failed
  · rename_i breakdown hending
    cases failed
    obtain ⟨box, before, -, herror⟩ := searchWith_failed hending
    exact relax_ofRelaxation box herror

section Questions

variable {oracle : Oracle σ α} {initial : σ} {node : Node α} {tree rest : Tree α}
  {state state' : σ × List (Box α)} {done : List (Visit α)}

/-- A visit from a state that a search has come to asks about every variable. -/
lemma size_kept {result : Except (Breakdown α) (Visit α)}
    (reached : model.Reaches settings oracle.recording (initial, []) tree state done)
    (popped : tree.pop? = some (node, rest))
    (visited : model.visit settings oracle.recording node rest state = (result, state'))
    (hkept : ∀ box ∈ state.2, box.size = n) : ∀ box ∈ state'.2, box.size = n := by
  have hcuts := reached.cuts_lt popped
  have hstate : (model.visit settings oracle.recording node rest state).2 = state' := by
    rw [visited]
  rw [← hstate]
  rcases model.box_cases hcuts with void | ⟨left, hleft⟩
  · unfold Model.visit
    rw [void]
    exact hkept
  · rw [snd_visit hleft]
    intro box hbox
    rcases List.mem_cons.1 hbox with rfl | hbox
    · exact left.size_toArray
    · exact hkept box hbox

lemma Reaches.size_kept (reached : model.Reaches settings oracle.recording (initial, []) tree state done) :
    ∀ box ∈ state.2, box.size = n := by
  induction reached with
  | start => simp
  | step reached popped visited ih => exact Model.size_kept reached popped visited ih

/-- The questions of a search are about every variable. -/
lemma size_questions (oracle : Oracle σ α) (initial : σ) :
    ∀ box ∈ model.questions settings clock oracle initial, box.size = n := by
  unfold questions
  cases hending : (model.searchWith settings clock oracle.recording (initial, [])).ending with
  | finished status last =>
    obtain ⟨done, reached, -, -⟩ := explore_finished .start hending
    exact reached.size_kept
  | failed breakdown =>
    obtain ⟨last, before, done, node, rest, reached, popped, broken, -⟩ := explore_failed .start hending
    exact size_kept reached popped broken reached.size_kept

end Questions

/-! ## Made models -/

/-- What the check of a model establishes. -/
structure IsMadeFrom (model : Model α m n) (matrix : SparseMatrix α m n) (target cost : Array α) (bounds : Box α)
    (integers : List Nat) : Prop where
  matrix : model.matrix = matrix
  target : target.size = m ∧ model.target.toArray = target
  cost : cost.size = n ∧ model.cost.toArray = cost
  bounds : bounds.size = n ∧ model.box = bounds
  ascending : model.integerIndices.Pairwise (· < ·)
  mem_integerIndices : ∀ i, i ∈ model.integerIndices ↔ i ∈ integers
  integerIndices_lt : ∀ i ∈ model.integerIndices, i < n

lemma isMadeFrom_of_make {matrix : SparseMatrix α m n} {target cost : Array α} {bounds : Box α}
    {integers : List Nat} (made : make matrix target cost bounds integers = .ok model) :
    model.IsMadeFrom matrix target cost bounds integers := by
  have hlt : ∀ i ∈ model.integerIndices, i < n := by
    intro i hi
    obtain ⟨i, -, rfl⟩ := List.mem_map.1 hi
    exact i.isLt
  have hascending : model.integerIndices.Pairwise (· < ·) := List.pairwise_map.2 model.ascending
  unfold make at made
  split at made
  · rename_i htarget
    split at made
    · rename_i hcost
      split at made
      · rename_i hbounds
        split at made
        · cases made
        · split at made
          · rename_i hintegers
            cases made
            refine ⟨rfl, ⟨htarget, rfl⟩, ⟨hcost, rfl⟩, ⟨hbounds, rfl⟩, hascending, ?_, hlt⟩
            intro i
            simp [integerIndices]
          · cases made
      · cases made
    · cases made
  · cases made

/-- No search of an accepted model faults. The model has the parts it was made from, its integer variables
ascending, each once and in range. Whatever the oracle, every visit of a search comes to a verdict or has the
error that the reply is, be it the oracle's own or that the point has the wrong length; no other error ends the
search. With the simplex method on unchecked arrays as its oracle, the search is that with the simplex oracle;
all its questions are stated linear programs of the right lengths, solved without a fault; and it fails only
because a relaxation is not solved. -/
theorem searchWith_faultless {matrix : SparseMatrix α m n} {target cost : Array α} {bounds : Box α}
    {integers : List Nat} (made : make matrix target cost bounds integers = .ok model) :
    model.IsMadeFrom matrix target cost bounds integers ∧
    (∀ (σ : Type) (settings : Settings α) (oracle : Oracle σ α) (initial : σ),
      (∀ tree state done, model.Reaches settings oracle initial tree state done →
        ∀ node rest, tree.pop? = some (node, rest) → model.IsSteady settings oracle node rest state) ∧
      (∀ clock, ∀ visit ∈ (model.searchWith settings clock oracle initial).visits, ∀ asked ∈ visit.asked,
        asked.1.size = n ∧ asked.2.error? n = none) ∧
      (∀ clock breakdown, (model.searchWith settings clock oracle initial).ending = .failed breakdown →
        ∃ (box : Vector (Interval α) n) (before : σ),
          box.toArray ∈ model.questions settings clock oracle initial ∧
          (oracle box.toArray before).1.error? n = some breakdown.error)) ∧
    (∀ (settings : Settings α) (clock : Nat → Nat),
      model.searchWith settings clock (model.oracleInPlace settings.simplex) () =
        model.search settings clock ∧
      (∀ box ∈ model.questions settings clock (model.simplexOracle settings.simplex) (), box.size = n ∧
        (model.linearProblem box).solveInPlace settings.simplex =
          .ok ((model.linearProblem box).solve settings.simplex) ∧
        ∀ defect, (model.linearProblem box).check = .error defect → defect.isDimension = false) ∧
      ∀ error, (model.search settings clock).solution = .error error → error.OfRelaxation) := by
  refine ⟨isMadeFrom_of_make made, ?_, ?_⟩
  · intro σ settings oracle initial
    refine ⟨?_, ?_, ?_⟩
    · intro tree state done reached node rest popped
      exact reached.isSteady popped
    · intro clock visit hvisit
      obtain ⟨tree, state, done, reached, hvisits⟩ := exists_reaches model settings clock oracle initial
      rw [hvisits, List.mem_reverse] at hvisit
      exact reached.error?_asked visit hvisit
    · intro clock breakdown failed
      exact searchWith_failed failed
  · intro settings clock
    refine ⟨by rw [oracleInPlace_eq, search], ?_, fun error failed => search_ofRelaxation failed⟩
    intro box hbox
    have hsize := size_questions _ _ box hbox
    exact ⟨hsize, LinearProblem.solveInPlace_eq _ _, fun defect => isDimension_linearProblem ⟨box, hsize⟩⟩

/-- A number is whole, as is said twice, and its double is three. A reply of two values for this one number ends
the search with the error of that reply, and the simplex method on unchecked arrays finds that there is no such
number. -/
theorem searchWith_faultless_twice : ∃ model : Model Rat 1 1,
    make (.ofRows #v[#v[2]]) #[3] #[1] #[.nonneg] [0, 0] = .ok model ∧
      (∀ i, i ∈ model.integerIndices ↔ i ∈ [0, 0]) ∧
      (model.searchWith .standard id (fun _ state => (⟨.ok (.optimal 0 #[1, 1]), []⟩, state)) ()).solution =
        .error (.oracle (.wrongLength 2 1)) ∧
      (model.searchWith .standard id (model.oracleInPlace (Settings.standard : Settings Rat).simplex) ()).solution =
        .ok ⟨.infeasible, none, 3, 0⟩ := by
  obtain ⟨model, made, hwrong, hsearch⟩ : ∃ model : Model Rat 1 1,
      make (.ofRows #v[#v[2]]) #[3] #[1] #[.nonneg] [0, 0] = .ok model ∧
      (model.searchWith .standard id (fun _ state => (⟨.ok (.optimal 0 #[1, 1]), []⟩, state)) ()).solution =
        .error (.oracle (.wrongLength 2 1)) ∧
      (model.search .standard id).solution = .ok ⟨.infeasible, none, 3, 0⟩ :=
    ⟨_, rfl, by decide +kernel, by decide +kernel⟩
  obtain ⟨hmade, -, hsimplex⟩ := searchWith_faultless made
  refine ⟨model, made, hmade.mem_integerIndices, hwrong, ?_⟩
  rw [(hsimplex .standard id).1]
  exact hsearch

end Model

end IntegerProgram
