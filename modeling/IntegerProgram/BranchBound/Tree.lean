import IntegerProgram.BranchBound.Decision
import IntegerProgram.BranchBound.Incumbent
import IntegerProgram.BranchBound.Node
import IntegerProgram.BranchBound.Solution

/-!
# Search trees

The state of a search: the frontier, the best candidate so far, the next free node number, and a
tally of the fates of explored nodes. Every node that leaves the frontier is recorded with one of five
fates.
-/

namespace IntegerProgram

/-- What became of an explored node. -/
inductive Fate where
  /-- Its box is empty, and no relaxation was asked for. -/
  | emptyDomain
  /-- Its relaxation has no solution. -/
  | relaxationInfeasible
  /-- Its relaxation cannot beat the incumbent. -/
  | dominated
  /-- Its relaxation is integral. -/
  | integerCandidate
  /-- It was split in two. -/
  | branched
  deriving DecidableEq, Repr

/-- How many explored nodes had each fate. -/
structure Tally where
  emptyDomain : Nat
  relaxationInfeasible : Nat
  dominated : Nat
  integerCandidates : Nat
  branched : Nat
  deriving DecidableEq, Repr

/-- The state of a search. -/
structure Tree (α : Type) where
  frontier : Frontier α
  incumbent : Incumbent α
  nextId : Nat
  tally : Tally
  deriving DecidableEq, Repr

/-- The counts of a search. -/
structure Stats (α : Type) where
  nodesExplored : Nat
  nodesCreated : Nat
  nodesOpen : Nat
  peakOpen : Nat
  tally : Tally
  incumbentUpdates : Nat
  /-- Absent as long as there is no incumbent. -/
  incumbentObjective : Option α

namespace Tally

/-- No node explored. -/
def zero : Tally :=
  ⟨0, 0, 0, 0, 0⟩

/-- The tally with one more node. -/
def count (tally : Tally) : Fate → Tally
  | .emptyDomain => { tally with emptyDomain := tally.emptyDomain + 1 }
  | .relaxationInfeasible => { tally with relaxationInfeasible := tally.relaxationInfeasible + 1 }
  | .dominated => { tally with dominated := tally.dominated + 1 }
  | .integerCandidate => { tally with integerCandidates := tally.integerCandidates + 1 }
  | .branched => { tally with branched := tally.branched + 1 }

/-- The nodes given up without a candidate. -/
def pruned (tally : Tally) : Nat :=
  tally.emptyDomain + tally.relaxationInfeasible + tally.dominated

end Tally

namespace Tree

variable {α : Type}

/-- The tree before anything is explored; number zero belongs to the root. -/
def empty : Tree α :=
  ⟨.empty, .empty, 1, .zero⟩

/-- The tree with one more pending node. -/
def push (tree : Tree α) (node : Node α) : Tree α :=
  { tree with frontier := tree.frontier.push node }

/-- The tree with the root pending. -/
def start : Tree α :=
  empty.push .root

/-- The node to explore next and the tree without it. -/
def pop? (tree : Tree α) : Option (Node α × Tree α) :=
  tree.frontier.pop?.map fun (node, rest) => (node, { tree with frontier := rest })

/-- The number of nodes explored. -/
def explored (tree : Tree α) : Nat :=
  tree.frontier.popped

/-- The number of nodes pending. -/
def pending (tree : Tree α) : Nat :=
  tree.frontier.size

/-- The tree with a fate recorded. -/
def record (tree : Tree α) (fate : Fate) : Tree α :=
  { tree with tally := tree.tally.count fate }

/-- The children of a node below and above a decision, and the tree with their numbers taken. -/
def branch (tree : Tree α) (parent : Node α) (decision : Decision α) :
    (Node α × Node α) × Tree α :=
  ((parent.child tree.nextId decision.down, parent.child (tree.nextId + 1) decision.up),
    { tree with nextId := tree.nextId + 2 })

/-- The status of a complete search. -/
def exhaustedStatus (tree : Tree α) : Status :=
  if tree.incumbent.best.isSome then .optimal else .infeasible

/-- The result of a search that ends here. -/
def finish (tree : Tree α) (status : Status) : Solution α where
  status
  best := tree.incumbent.best
  nodesExplored := tree.explored
  incumbentUpdates := tree.incumbent.updates

/-- The counts so far. -/
def stats (tree : Tree α) : Stats α where
  nodesExplored := tree.explored
  nodesCreated := tree.frontier.added
  nodesOpen := tree.pending
  peakOpen := tree.frontier.peak
  tally := tree.tally
  incumbentUpdates := tree.incumbent.updates
  incumbentObjective := tree.incumbent.objective?

variable [Scalar α]

/-- The tree after a candidate was offered. -/
def offer (tree : Tree α) (candidate : Candidate α) : Tree α :=
  { tree with incumbent := tree.incumbent.offer candidate }

/-- Whether a relaxed objective cannot beat the incumbent. -/
def dominates (tree : Tree α) (settings : Settings α) (bound : α) : Bool :=
  tree.incumbent.dominates bound settings.pruneTol

/-- How a search ends that must not go on: nothing is pending, or else the node budget is spent, or
else the time. -/
def termination? (tree : Tree α) (settings : Settings α) (elapsed : Nat) : Option Status :=
  if tree.frontier.isEmpty then some tree.exhaustedStatus
  else if settings.maxNodes ≤ tree.explored then some .nodeLimit
  else if settings.isLate elapsed then some .timeLimit
  else none

end Tree

end IntegerProgram
