import IntegerProgram.BranchBound.Search
import IntegerProgram.Decimal
import IntegerProgram.Model.Encoding

/-!
# Journals

What a search has to tell: events, each of a level and with a text. `SearchRun.events` reads the events
of a search off its history, in the order in which they happened; `Journal.atLevel` keeps the events of
a level and above as lines.
-/

namespace IntegerProgram

/-- How much an event matters, the least first. -/
inductive Level where
  | trace
  | debug
  | info
  | warn
  deriving DecidableEq, Repr

/-- Something worth telling. -/
inductive Event (α : Type) where
  /-- A step of the simplex method. -/
  | step (step : Step α)
  /-- A node was explored. -/
  | visited (id depth : Nat) (fate : Fate)
  /-- There is a new incumbent. -/
  | improved (objective : α) (explored pending : Nat)
  /-- The state of the search after some milliseconds. -/
  | progress (explored pending : Nat) (objective : Option α) (pruned elapsed : Nat)
  /-- The node budget is spent. -/
  | nodeLimit (limit pending : Nat)
  /-- The time is spent. -/
  | timeLimit (explored pending : Nat)
  /-- The search ended after some milliseconds. -/
  | finished (status : Status) (stats : Stats α) (elapsed : Nat)
  /-- A machine of a batch is solved. -/
  | machine (number : Nat) (encoding : Encoding) (optimum : Int)

/-- A line of a journal. -/
structure Line where
  level : Level
  text : String
  deriving DecidableEq, Repr

namespace Level

/-- The place of a level in their order. -/
def rank : Level → Nat
  | trace => 0
  | debug => 1
  | info => 2
  | warn => 3

/-- The name of a level. -/
def name : Level → String
  | trace => "TRACE"
  | debug => "DEBUG"
  | info => "INFO"
  | warn => "WARN"

end Level

/-- The name of a fate. -/
def Fate.name : Fate → String
  | .emptyDomain => "EmptyDomain"
  | .relaxationInfeasible => "RelaxationInfeasible"
  | .dominated => "Dominated"
  | .integerCandidate => "IntegerCandidate"
  | .branched => "Branched"

/-- The name of a status. -/
def Status.name : Status → String
  | .optimal => "Optimal"
  | .infeasible => "Infeasible"
  | .nodeLimit => "NodeLimit"
  | .timeLimit => "TimeLimit"

/-- The name of an encoding. -/
def Encoding.name : Encoding → String
  | .parity => "Parity"
  | .direct => "Direct"

/-- An objective in a layout; an absent one is infinite. -/
def objectiveText (layout : Decimal.Layout) (objective : Option Float) : String :=
  objective.elim NonFinite.infinity.text (Decimal.text layout)

/-- Milliseconds as seconds with one place behind the point. -/
def secondsText (elapsed : Nat) : String :=
  Decimal.fixed 1 (Float.ofNat elapsed / 1000)

/-- The counts of a search in one line. -/
def Stats.text (stats : Stats Float) (elapsed : Nat) : String :=
  let fields := [
    s!"nodes_explored: {stats.nodesExplored}",
    s!"nodes_created: {stats.nodesCreated}",
    s!"nodes_open: {stats.nodesOpen}",
    s!"peak_open: {stats.peakOpen}",
    s!"empty_domain: {stats.tally.emptyDomain}",
    s!"relaxation_infeasible: {stats.tally.relaxationInfeasible}",
    s!"dominated: {stats.tally.dominated}",
    s!"integer_candidates: {stats.tally.integerCandidates}",
    s!"branched: {stats.tally.branched}",
    s!"incumbent_updates: {stats.incumbentUpdates}",
    "incumbent_obj: " ++ objectiveText .marked stats.incumbentObjective,
    s!"elapsed_ms: {elapsed}"]
  "TreeStats \x7b " ++ ", ".intercalate fields ++ " \x7d"

/-- The text of a step of the simplex method. -/
def Step.text : Step Float → String
  | .pivot count enters leaves row =>
    s!"pivot {count}: col {enters} enters, col {leaves} leaves (row {row})"
  | .phaseOne pivots infeasibility =>
    s!"phase 1 done after {pivots} pivots, infeasibility " ++ Decimal.scientific 3 infeasibility
  | .redundantRow row => s!"row {row} is redundant"
  | .phaseTwo pivots objective =>
    s!"phase 2 done after {pivots} pivots total, objective " ++ Decimal.scientific 6 objective

/-- The level of a step of the simplex method: single pivots and rows matter least. -/
def Step.level {α : Type} : Step α → Level
  | .pivot .. => .trace
  | .phaseOne .. => .debug
  | .redundantRow _ => .trace
  | .phaseTwo .. => .debug

namespace Event

/-- The level of an event. -/
def level {α : Type} : Event α → Level
  | step s => s.level
  | visited .. => .debug
  | improved .. => .info
  | progress .. => .info
  | nodeLimit .. => .warn
  | timeLimit .. => .warn
  | finished .. => .debug
  | machine .. => .info

/-- The text of an event. -/
def text : Event Float → String
  | step s => s.text
  | visited id depth fate => s!"node {id} (depth {depth}): {fate.name}"
  | improved objective explored pending =>
    "New incumbent: obj=" ++ Decimal.text .plain objective ++
      s!" after {explored} nodes ({pending} open)"
  | progress explored pending objective pruned elapsed =>
    s!"Nodes: {explored} ({pending} open) | Incumbent: " ++ objectiveText .plain objective ++
      s!" | Pruned: {pruned} | Time: " ++ secondsText elapsed ++ "s"
  | nodeLimit limit pending => s!"Node limit {limit} reached with {pending} open nodes"
  | timeLimit explored pending =>
    s!"Time limit reached after {explored} nodes with {pending} open nodes"
  | finished status stats elapsed => s!"search finished: {status.name} " ++ stats.text elapsed
  | machine number encoding optimum => s!"machine {number}: {encoding.name} optimum {optimum}"

end Event

/-- The lines of the events that matter at least as much as a level. -/
def Journal.atLevel (least : Level) (events : List (Event Float)) : List Line :=
  (events.filter fun e => decide (least.rank ≤ e.level.rank)).map fun e => ⟨e.level, e.text⟩

namespace Tree

variable {α : Type} [Scalar α]

/-- The event of a new incumbent, if a candidate is one and progress is told. -/
def improvement? (tree : Tree α) (settings : Settings α) (objective : α) : Option (Event α) :=
  if tree.incumbent.isImprovedBy objective && settings.verbose then
    some (.improved objective tree.explored tree.pending)
  else none

/-- The event of progress, if it is told after so many nodes. -/
def progress? (tree : Tree α) (settings : Settings α) (elapsed : Nat) : Option (Event α) :=
  if settings.verbose && settings.progressEvery != 0 &&
      tree.explored % settings.progressEvery == 0 then
    some (.progress tree.explored tree.pending tree.incumbent.objective? tree.tally.pruned elapsed)
  else none

/-- The warning that goes with a status, if it is a spent budget. -/
def limit? (tree : Tree α) (settings : Settings α) : Status → Option (Event α)
  | .nodeLimit => some (.nodeLimit settings.maxNodes tree.pending)
  | .timeLimit => some (.timeLimit tree.explored tree.pending)
  | _ => none

end Tree

namespace Visit

variable {α : Type} [Scalar α]

/-- The steps of the relaxation that was asked about. -/
def steps (visit : Visit α) : List (Step α) :=
  match visit.asked with
  | some (_, reply) => reply.journal
  | none => []

/-- The events of a visit: the relaxation, a new incumbent, the fate of the node, and progress unless
the node was given up. -/
def events (settings : Settings α) (clock : Nat → Nat) (visit : Visit α) : List (Event α) :=
  let fate := Event.visited visit.node.id visit.node.depth visit.verdict.fate
  let progress := visit.after.progress? settings (clock visit.after.explored)
  visit.steps.map .step ++
    match visit.verdict with
    | .candidate c =>
      (visit.tree.improvement? settings c.objective).toList ++ [fate] ++ progress.toList
    | .split _ => fate :: progress.toList
    | _ => [fate]

end Visit

namespace SearchRun

variable {σ α : Type} [Scalar α]

/-- The events at the end of a search. -/
def closing (run : SearchRun σ α) (settings : Settings α) (clock : Nat → Nat) : List (Event α) :=
  match run.ending with
  | .finished status tree =>
    (tree.limit? settings status).toList ++ [.finished status tree.stats (clock tree.explored)]
  | .failed breakdown => breakdown.journal.map .step

/-- The events of a search. -/
def events (run : SearchRun σ α) (settings : Settings α) (clock : Nat → Nat) : List (Event α) :=
  run.visits.flatMap (Visit.events settings clock) ++ run.closing settings clock

end SearchRun

end IntegerProgram
