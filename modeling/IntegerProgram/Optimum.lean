import IntegerProgram.Journal

/-!
# Optima

The whole number that a search reports, the fewest selections of a machine, and the total over a batch
of machines. Only a complete search reports a number; a budget that stops it is an error that carries
the unproven incumbent.
-/

namespace IntegerProgram

/-- A selection problem: what each column contributes, and the target. -/
structure Machine (α : Type) where
  rows : Nat
  cols : Nat
  matrix : SparseMatrix α rows cols
  target : Array α

/-- A number or an error, and the events that led to it. -/
structure Answer (α : Type) where
  result : Except Error Int
  events : List (Event α)

namespace Solution

variable {α : Type} [Scalar α]

/-- The objective that a solution reports. -/
def report (solution : Solution α) (policy : NoSolutionPolicy) : Except Error Int :=
  match solution.status, solution.integerObjective, policy with
  | .nodeLimit, incumbent, _ => .error (.nodeLimit incumbent)
  | .timeLimit, incumbent, _ => .error (.timeLimit incumbent)
  | _, some objective, _ => .ok objective
  | _, none, .error => .error .noSolution
  | _, none, .zero => .ok 0

end Solution

namespace Machine

variable {α : Type} [Scalar α]

/-- The fewest selections that reach the target of a machine. -/
def optimum (machine : Machine α) (encoding : Encoding) (settings : Settings α)
    (clock : Nat → Nat) : Answer α :=
  match encoding.encode machine.matrix machine.target with
  | .error error => ⟨.error error, []⟩
  | .ok model =>
    let run := model.search settings clock
    ⟨run.solution.bind (·.report settings.noSolution), run.events settings clock⟩

/-- The sum of two 64-bit signed integers, or the fault of a sum outside their range. -/
def addWhole (a b : Int) : Except Fault Int :=
  if Scalar.wholeMin ≤ a + b ∧ a + b ≤ Scalar.wholeMax then .ok (a + b) else .error (.overflow (a + b))

/-- Adds the optima of machines to a total; the first of them has the given number. -/
def totalFrom (encoding : Encoding) (settings : Settings α) (clock : Nat → Nat) :
    Nat → Int → List (Machine α) → Answer α
  | _, total, [] => ⟨.ok total, []⟩
  | number, total, machine :: rest =>
    let answer := machine.optimum encoding settings clock
    match answer.result with
    | .error error => ⟨.error error, answer.events⟩
    | .ok objective =>
      let told := if settings.verbose then [.machine number encoding objective] else []
      match addWhole total objective with
      | .error fault => ⟨.error (.fault fault), answer.events ++ told⟩
      | .ok sum =>
        let later := totalFrom encoding settings clock (number + 1) sum rest
        ⟨later.result, answer.events ++ told ++ later.events⟩

/-- The sum of the optima of a batch; the first machine without an optimum decides. -/
def total (machines : List (Machine α)) (encoding : Encoding) (settings : Settings α)
    (clock : Nat → Nat) : Answer α :=
  totalFrom encoding settings clock 1 0 machines

end Machine

end IntegerProgram
