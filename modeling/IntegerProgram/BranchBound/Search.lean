import IntegerProgram.BranchBound.Relaxation
import IntegerProgram.BranchBound.Tree

/-!
# Branch and bound

The search explores the pending nodes, the latest first:

* `Model.judge` reaches a verdict on a relaxation: it is infeasible, dominated by the incumbent, a new
  candidate, or to be split.
* `Model.visit` asks the oracle about the box of a node and judges the answer; an empty box is not
  asked about.
* `Tree.settle` enters a verdict into the tree.
* `Model.explore` repeats this until nothing is pending or a budget is spent, and keeps the history of
  all visits.
-/

namespace IntegerProgram

/-- The verdict on a node. -/
inductive Verdict (α : Type) where
  | emptyDomain
  | infeasible
  | dominated
  | candidate (candidate : Candidate α)
  | split (decision : Decision α)

/-- One explored node: the tree it was taken from, the question asked and its answer, the verdict. -/
structure Visit (α : Type) where
  node : Node α
  /-- The tree without the node. -/
  tree : Tree α
  /-- The box asked about and the reply; absent for an empty box. -/
  asked : Option (Box α × Reply α)
  verdict : Verdict α

/-- A visit that came to no verdict: the error, and the steps of the relaxation before it. -/
structure Breakdown (α : Type) where
  error : Error
  journal : List (Step α)

/-- How a search ended. -/
inductive SearchEnd (α : Type) where
  | finished (status : Status) (tree : Tree α)
  | failed (breakdown : Breakdown α)

/-- A search: the visits in order, its end, and the oracle's last state. -/
structure SearchRun (σ α : Type) where
  visits : List (Visit α)
  ending : SearchEnd α
  state : σ

namespace Verdict

variable {α : Type}

/-- The fate that a verdict means for its node. -/
def fate : Verdict α → Fate
  | emptyDomain => .emptyDomain
  | infeasible => .relaxationInfeasible
  | dominated => .dominated
  | candidate _ => .integerCandidate
  | split _ => .branched

end Verdict

namespace Tree

variable {α : Type} [Scalar α]

/-- The tree after the verdict on a node: a candidate is offered, a split node leaves its two children,
the upper to be explored first. -/
def settle (tree : Tree α) (node : Node α) (verdict : Verdict α) : Tree α :=
  match verdict with
  | .candidate candidate => (tree.offer candidate).record verdict.fate
  | .split decision =>
    let ((down, up), tree) := tree.branch node decision
    ((tree.push down).push up).record verdict.fate
  | _ => tree.record verdict.fate

end Tree

namespace Visit

variable {α : Type} [Scalar α]

/-- The tree after a visit. -/
def after (visit : Visit α) : Tree α :=
  visit.tree.settle visit.node visit.verdict

end Visit

namespace SearchRun

variable {σ α : Type}

/-- The solution that a search found, or the error that stopped it. -/
def solution (run : SearchRun σ α) : Except Error (Solution α) :=
  match run.ending with
  | .finished status tree => .ok (tree.finish status)
  | .failed breakdown => .error breakdown.error

end SearchRun

namespace Model

variable {α : Type} [Scalar α] {m n : Nat} {σ : Type}

/-- The verdict on a relaxation whose optimum is at `values`: split a fractional variable, or else take
the rounded point as a candidate. -/
def judgePoint (model : Model α m n) (settings : Settings α) (values : Array α) :
    Except Fault (Verdict α) := do
  match ← settings.branchingRule.select model values settings.integralityTol with
  | some decision => return .split decision
  | none => return .candidate (← Candidate.ofPoint values model.integerIndices model.cost.toArray)

/-- The verdict on a relaxation under an incumbent. -/
def judge (model : Model α m n) (settings : Settings α) (incumbent : Incumbent α) :
    Relaxation α → Except Error (Verdict α)
  | .infeasible => .ok .infeasible
  | .optimal objective values =>
    if values.size ≠ n then .error (.oracle (.wrongLength values.size n))
    else if incumbent.dominates objective settings.pruneTol then .ok .dominated
    else Error.ofFault (model.judgePoint settings values)

/-- Explores a node taken from a tree. -/
def visit (model : Model α m n) (settings : Settings α) (oracle : Oracle σ α) (node : Node α)
    (tree : Tree α) (state : σ) : Except (Breakdown α) (Visit α) × σ :=
  match node.box model.box with
  | .error fault => (.error ⟨.fault fault, []⟩, state)
  | .ok none => (.ok ⟨node, tree, none, .emptyDomain⟩, state)
  | .ok (some box) =>
    let (reply, state) := oracle box state
    match reply.answer.bind (model.judge settings tree.incumbent) with
    | .error error => (.error ⟨error, reply.journal⟩, state)
    | .ok verdict => (.ok ⟨node, tree, some (box, reply), verdict⟩, state)

/-- Continues a search with a budget of nodes after the visits `done`, latest first. The clock gives the
milliseconds spent when so many nodes are explored. -/
def explore (model : Model α m n) (settings : Settings α) (clock : Nat → Nat) (oracle : Oracle σ α) :
    Nat → Tree α → σ → List (Visit α) → SearchRun σ α
  | budget, tree, state, done =>
    match tree.pop?, budget with
    | none, _ => ⟨done.reverse, .finished tree.exhaustedStatus tree, state⟩
    | some _, 0 => ⟨done.reverse, .finished .nodeLimit tree, state⟩
    | some (node, rest), budget + 1 =>
      if settings.isLate (clock tree.explored) then
        ⟨done.reverse, .finished .timeLimit tree, state⟩
      else
        match model.visit settings oracle node rest state with
        | (.error breakdown, state) => ⟨done.reverse, .failed breakdown, state⟩
        | (.ok visit, state) =>
          explore model settings clock oracle budget visit.after state (visit :: done)

/-- Searches the whole box of a model with the help of an oracle. -/
def searchWith (model : Model α m n) (settings : Settings α) (clock : Nat → Nat)
    (oracle : Oracle σ α) (state : σ) : SearchRun σ α :=
  model.explore settings clock oracle settings.maxNodes .start state []

/-- Searches the whole box of a model, relaxations being solved by the simplex method. -/
def search (model : Model α m n) (settings : Settings α) (clock : Nat → Nat) : SearchRun Unit α :=
  model.searchWith settings clock (model.simplexOracle settings.simplex) ()

end Model

end IntegerProgram
