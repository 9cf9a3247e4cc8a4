import Mathlib
import IntegerProgram.Proofs.LinearProgram.Checkpoints

/-!
# Budgets of pivots

A budget of pivots cuts a solve short and does nothing else, in every number system:

* `Phase.IsCutFrom` compares a run of pivots with one that may go on for longer; the equations of `runFrom`
  give it for all runs (`Tableau.isCutFrom_runFrom`).
* `LinearReport.IsCutFrom` does the same for reports. What follows the first phase starts at the same tableau
  with less of the budget left (`LinearProgram.isCutFrom_solveFrom`), so the comparison carries over from the
  phases to the whole solve (`LinearProgram.isCutFrom_solve`).
* `LinearProblem.solve_truncates` compares the solves with two budgets.
-/

namespace IntegerProgram

/-- The same tolerances with another budget of pivots. -/
def SimplexSettings.withMaxPivots {α : Type} (settings : SimplexSettings α) (budget : Nat) :
    SimplexSettings α :=
  { settings with maxPivots := budget }

/-! ## Runs -/

/-- A run of pivots beside one that may make `more` further pivots: a run that was not out of pivots is the
same, and one that was goes on from the pivots it has made. -/
structure Phase.IsCutFrom {α : Type} {m n : Nat} (short long : Phase α m n) (more : Nat) : Prop where
  settled : short.ending ≠ .outOfPivots → long = short
  begins : short.pivots <+: long.pivots
  goesOn : short.ending = .outOfPivots → 0 < more → short.pivots.length < long.pivots.length

lemma Phase.isCutFrom_refl {α : Type} {m n : Nat} {phase : Phase α m n} {more : Nat}
    (h : phase.ending ≠ .outOfPivots) : phase.IsCutFrom phase more :=
  ⟨fun _ => rfl, List.prefix_rfl, fun hend => absurd hend h⟩

namespace Tableau

variable {α : Type} [Scalar α] {m n : Nat} {allowed : Nat} {settings : SimplexSettings α}

lemma prefix_runFrom (allowed : Nat) (settings : SimplexSettings α) (budget : Nat) (t : Tableau α m n)
    (done : List (Pivot m n)) :
    done.reverse <+: (runFrom allowed settings budget t done).pivots := by
  obtain ⟨made, hpivots, -⟩ := replay_runFrom allowed settings budget t done
  exact ⟨made, hpivots.symm⟩

/-- A run of at most `budget` pivots is cut from the one that may make more. -/
lemma isCutFrom_runFrom (budget more : Nat) (t : Tableau α m n) (done : List (Pivot m n)) :
    (runFrom allowed settings budget t done).IsCutFrom
      (runFrom allowed settings (budget + more) t done) more := by
  induction budget generalizing t done with
  | zero =>
    cases hc : t.choose allowed settings with
    | optimal =>
      rw [runFrom_optimal hc, runFrom_optimal hc]
      exact Phase.isCutFrom_refl nofun
    | unbounded =>
      rw [runFrom_unbounded hc, runFrom_unbounded hc]
      exact Phase.isCutFrom_refl nofun
    | pivot p =>
      rw [runFrom_zero hc, Nat.zero_add]
      refine ⟨fun hend => absurd rfl hend, prefix_runFrom allowed settings more t done, ?_⟩
      intro _ hmore
      -- the first of the further pivots is the one that the short run had no budget for
      obtain ⟨rest, rfl⟩ := Nat.exists_eq_succ_of_ne_zero hmore.ne'
      rw [Nat.succ_eq_add_one, runFrom_succ hc]
      have hlength := (prefix_runFrom allowed settings rest
        (t.pivot p.row p.enters) (p :: done)).length_le
      simp only [List.length_reverse, List.length_cons] at hlength ⊢
      omega
  | succ budget ih =>
    cases hc : t.choose allowed settings with
    | optimal =>
      rw [runFrom_optimal hc, runFrom_optimal hc]
      exact Phase.isCutFrom_refl nofun
    | unbounded =>
      rw [runFrom_unbounded hc, runFrom_unbounded hc]
      exact Phase.isCutFrom_refl nofun
    | pivot p =>
      rw [Nat.succ_add, Nat.succ_eq_add_one, runFrom_succ hc, runFrom_succ hc]
      exact ih _ _

/-- The budget of the settings plays no part in a run, which has a budget of its own. -/
lemma runFrom_withMaxPivots (total budget : Nat) (t : Tableau α m n) (done : List (Pivot m n)) :
    runFrom allowed (settings.withMaxPivots total) budget t done =
      runFrom allowed settings budget t done := by
  have hchoose : ∀ u : Tableau α m n,
      u.choose allowed (settings.withMaxPivots total) = u.choose allowed settings := fun _ => rfl
  induction budget generalizing t done with
  | zero =>
    cases hc : t.choose allowed settings with
    | optimal => rw [runFrom_optimal hc, runFrom_optimal ((hchoose t).trans hc)]
    | unbounded => rw [runFrom_unbounded hc, runFrom_unbounded ((hchoose t).trans hc)]
    | pivot p => rw [runFrom_zero hc, runFrom_zero ((hchoose t).trans hc)]
  | succ budget ih =>
    cases hc : t.choose allowed settings with
    | optimal => rw [runFrom_optimal hc, runFrom_optimal ((hchoose t).trans hc)]
    | unbounded => rw [runFrom_unbounded hc, runFrom_unbounded ((hchoose t).trans hc)]
    | pivot p => rw [runFrom_succ hc, runFrom_succ ((hchoose t).trans hc), ih]

end Tableau

/-! ## Reports -/

/-- A report with at most `budget` pivots beside one with at most `more` further ones. -/
structure LinearReport.IsCutFrom {α : Type} {n : Nat} (short long : LinearReport α n)
    (budget more : Nat) : Prop where
  settled : short.result ≠ .ok .pivotLimit → long = short
  begins : short.journal <+: long.journal
  within : short.iterations ≤ budget
  spent : short.result = .ok .pivotLimit → short.iterations = budget
  goesOn : short.result = .ok .pivotLimit → 0 < more → budget < long.iterations

lemma LinearReport.isCutFrom_refl {α : Type} {n : Nat} {report : LinearReport α n}
    {budget more : Nat} (h : report.result ≠ .ok .pivotLimit) (hle : report.iterations ≤ budget) :
    report.IsCutFrom report budget more :=
  ⟨fun _ => rfl, List.prefix_rfl, hle, fun hlimit => absurd hlimit h, fun hlimit => absurd hlimit h⟩

/-- Pivots that were made before take their part of the budget. -/
lemma LinearReport.IsCutFrom.after {α : Type} {n k l : Nat} {short long : LinearReport α n}
    {budget more : Nat} {pivots : List (Pivot k l)}
    (hcut : short.IsCutFrom long (budget - pivots.length) more) (hle : pivots.length ≤ budget) :
    LinearReport.IsCutFrom ⟨short.result, Step.ofPivots 0 pivots ++ short.journal⟩
      ⟨long.result, Step.ofPivots 0 pivots ++ long.journal⟩ budget more := by
  refine ⟨?_, (List.prefix_append_right_inj _).2 hcut.begins, ?_, ?_, ?_⟩
  · intro hresult
    rw [hcut.settled hresult]
  · rw [LinearProgram.iterations_ofPivots_append]
    exact (Nat.add_le_add_left hcut.within _).trans_eq (Nat.add_sub_of_le hle)
  · intro hresult
    rw [LinearProgram.iterations_ofPivots_append]
    exact (congrArg _ (hcut.spent hresult)).trans (Nat.add_sub_of_le hle)
  · intro hresult hmore
    rw [LinearProgram.iterations_ofPivots_append]
    exact (Nat.add_sub_of_le hle).symm.trans_lt
      (Nat.add_lt_add_left (hcut.goesOn hresult hmore) _)

namespace LinearProgram

variable {α : Type} [Scalar α] {m n : Nat} (p : LinearProgram α m n) (settings : SimplexSettings α)

lemma phaseOne_withMaxPivots (budget : Nat) : p.phaseOne (settings.withMaxPivots budget) =
    (p.standardForm.withObjective p.infeasibilityCost).run p.columnCount settings budget :=
  Tableau.runFrom_withMaxPivots budget budget _ []

lemma phaseTwo_withMaxPivots (budget spent : Nat) (t : Tableau α p.rowCount p.columnCount) :
    p.phaseTwo (settings.withMaxPivots budget) spent t = t.run p.realCount settings (budget - spent) :=
  Tableau.runFrom_withMaxPivots budget (budget - spent) t []

lemma isCutFrom_phaseOne (budget more : Nat) :
    (p.phaseOne (settings.withMaxPivots budget)).IsCutFrom
      (p.phaseOne (settings.withMaxPivots (budget + more))) more := by
  rw [phaseOne_withMaxPivots, phaseOne_withMaxPivots]
  exact Tableau.isCutFrom_runFrom budget more _ []

lemma isCutFrom_phaseTwo {budget spent : Nat} (hspent : spent ≤ budget) (more : Nat)
    (t : Tableau α p.rowCount p.columnCount) :
    (p.phaseTwo (settings.withMaxPivots budget) spent t).IsCutFrom
      (p.phaseTwo (settings.withMaxPivots (budget + more)) spent t) more := by
  rw [phaseTwo_withMaxPivots, phaseTwo_withMaxPivots, Nat.sub_add_comm hspent]
  exact Tableau.isCutFrom_runFrom (budget - spent) more t []

omit [Scalar α] in
lemma ofPivots_begins {k l : Nat} (count : Nat) {short long : List (Pivot k l)} (h : short <+: long) :
    (Step.ofPivots count short : List (Step α)) <+: Step.ofPivots count long := by
  obtain ⟨rest, rfl⟩ := h
  unfold Step.ofPivots
  rw [List.zipIdx_append, List.map_append]
  exact List.prefix_append _ _

omit [Scalar α] in
lemma iterations_ofPivots {k l : Nat} (result : Except LinearError (Outcome α n)) (pivots : List (Pivot k l)) :
    LinearReport.iterations ⟨result, Step.ofPivots 0 pivots⟩ = pivots.length :=
  length_pivots_ofPivots 0 pivots

variable {p settings}

/-- The report of a second phase: its pivots follow the notes on the way to it, and nothing that comes after
is counted. -/
structure ReportsSecond (p : LinearProgram α m n) (settings : SimplexSettings α) (spent : Nat)
    (t : Tableau α p.rowCount p.columnCount) (two : Phase α p.rowCount p.columnCount)
    (report : LinearReport α n) : Prop where
  limit : report.result = .ok .pivotLimit ↔ two.ending = .outOfPivots
  begins : (.phaseOne spent t.objectiveValue ::
    (p.betweenPhases settings t).2.map (fun row => .redundantRow row.val) ++
      Step.ofPivots spent two.pivots : List (Step α)) <+: report.journal
  exact : two.ending = .outOfPivots → report.journal = .phaseOne spent t.objectiveValue ::
    (p.betweenPhases settings t).2.map (fun row => .redundantRow row.val) ++
      Step.ofPivots spent two.pivots
  iterations : report.iterations = two.pivots.length

lemma reportsSecond_solveFrom (p : LinearProgram α m n) (settings : SimplexSettings α) (spent : Nat)
    {t : Tableau α p.rowCount p.columnCount}
    (h : ¬ settings.feasibilityTol < t.objectiveValue) :
    p.ReportsSecond settings spent t
      (p.phaseTwo settings spent (p.betweenPhases settings t).1) (p.solveFrom settings spent t) := by
  have hcount := length_pivots_phaseTwo spent t.objectiveValue (p.betweenPhases settings t).2
    (p.phaseTwo settings spent (p.betweenPhases settings t).1).pivots
  unfold solveFrom
  rw [if_neg h]
  simp only
  cases hended : (p.phaseTwo settings spent (p.betweenPhases settings t).1).ending with
  | unbounded =>
    refine ⟨iff_of_false nofun ?_, List.prefix_rfl, fun _ => rfl, hcount⟩
    rw [hended]
    nofun
  | outOfPivots => exact ⟨⟨fun _ => hended, fun _ => rfl⟩, List.prefix_rfl, fun _ => rfl, hcount⟩
  | optimal =>
    have hne : (p.phaseTwo settings spent (p.betweenPhases settings t).1).ending ≠ .outOfPivots := by
      rw [hended]
      nofun
    refine ⟨iff_of_false nofun hne, List.prefix_append _ _, fun hend => absurd hend hne, ?_⟩
    unfold LinearReport.iterations LinearReport.pivots
    rw [List.filterMap_append, List.length_append, hcount]
    rfl

/-- What follows the first phase depends on the budget through the second phase only. -/
lemma solveFrom_withMaxPivots_congr {few many spent : Nat} {t : Tableau α p.rowCount p.columnCount}
    (h : p.phaseTwo (settings.withMaxPivots many) spent (p.betweenPhases settings t).1 =
      p.phaseTwo (settings.withMaxPivots few) spent (p.betweenPhases settings t).1) :
    p.solveFrom (settings.withMaxPivots many) spent t =
      p.solveFrom (settings.withMaxPivots few) spent t := by
  have hbetween : ∀ total, p.betweenPhases (settings.withMaxPivots total) t =
      p.betweenPhases settings t := fun _ => rfl
  unfold solveFrom
  simp only [hbetween, h]
  rfl

lemma isCutFrom_solveFrom (settings : SimplexSettings α) {budget spent : Nat} (hspent : spent ≤ budget) (more : Nat)
    (t : Tableau α p.rowCount p.columnCount) :
    (p.solveFrom (settings.withMaxPivots budget) spent t).IsCutFrom
      (p.solveFrom (settings.withMaxPivots (budget + more)) spent t) (budget - spent) more := by
  by_cases hfeasible : settings.feasibilityTol < t.objectiveValue
  · have hreport : ∀ total, p.solveFrom (settings.withMaxPivots total) spent t =
        ⟨.ok .infeasible, [.phaseOne spent t.objectiveValue]⟩ := fun _ => if_pos hfeasible
    rw [hreport, hreport]
    exact LinearReport.isCutFrom_refl nofun (Nat.zero_le _)
  · have short := reportsSecond_solveFrom p (settings.withMaxPivots budget) spent hfeasible
    have long := reportsSecond_solveFrom p (settings.withMaxPivots (budget + more)) spent hfeasible
    have hcut := isCutFrom_phaseTwo p settings hspent more (p.betweenPhases settings t).1
    have hends := Tableau.endsRun_run p.realCount settings (budget - spent)
      (p.betweenPhases settings t).1
    rw [← phaseTwo_withMaxPivots] at hends
    -- the notes between the phases do not depend on the budget, and the rest is that of the runs
    refine ⟨?_, ?_, short.iterations.trans_le hends.within_budget, ?_, ?_⟩
    · intro hresult
      exact solveFrom_withMaxPivots_congr (hcut.settled (mt short.limit.2 hresult))
    · by_cases hended : (p.phaseTwo (settings.withMaxPivots budget) spent
          (p.betweenPhases settings t).1).ending = .outOfPivots
      · rw [short.exact hended]
        refine List.IsPrefix.trans ?_ long.begins
        exact (List.prefix_append_right_inj _).2 (ofPivots_begins spent hcut.begins)
      · rw [solveFrom_withMaxPivots_congr (hcut.settled hended)]
    · intro hresult
      exact short.iterations.trans (hends.spent_budget (short.limit.1 hresult))
    · intro hresult hmore
      have hended := short.limit.1 hresult
      have hlt := hcut.goesOn hended hmore
      rw [hends.spent_budget hended] at hlt
      exact hlt.trans_eq long.iterations.symm

lemma solve_unbounded (h : p.bounds.any Interval.isEmpty = false)
    (ended : (p.phaseOne settings).ending = .unbounded) : p.solve settings =
      ⟨.error .infeasibilityUnbounded, Step.ofPivots 0 (p.phaseOne settings).pivots⟩ := by
  unfold solve
  rw [if_neg (Bool.eq_false_iff.1 h)]
  simp only [ended]

lemma solve_outOfPivots (h : p.bounds.any Interval.isEmpty = false)
    (ended : (p.phaseOne settings).ending = .outOfPivots) : p.solve settings =
      ⟨.ok .pivotLimit, Step.ofPivots 0 (p.phaseOne settings).pivots⟩ := by
  unfold solve
  rw [if_neg (Bool.eq_false_iff.1 h)]
  simp only [ended]

lemma solve_optimal (h : p.bounds.any Interval.isEmpty = false)
    (ended : (p.phaseOne settings).ending = .optimal) : p.solve settings =
      ⟨(p.solveFrom settings (p.phaseOne settings).pivots.length (p.phaseOne settings).tableau).result,
        Step.ofPivots 0 (p.phaseOne settings).pivots ++
          (p.solveFrom settings (p.phaseOne settings).pivots.length
            (p.phaseOne settings).tableau).journal⟩ := by
  unfold solve
  rw [if_neg (Bool.eq_false_iff.1 h)]
  simp only [ended]

/-- The report of a solve without an empty interval starts with the pivots of the first phase. -/
lemma ofPivots_phaseOne_begins (settings : SimplexSettings α) (h : p.bounds.any Interval.isEmpty = false) :
    Step.ofPivots 0 (p.phaseOne settings).pivots <+: (p.solve settings).journal := by
  cases hended : (p.phaseOne settings).ending with
  | unbounded => rw [solve_unbounded h hended]
  | outOfPivots => rw [solve_outOfPivots h hended]
  | optimal =>
    rw [solve_optimal h hended]
    exact List.prefix_append _ _

lemma isCutFrom_solve (p : LinearProgram α m n) (settings : SimplexSettings α) (budget more : Nat) :
    (p.solve (settings.withMaxPivots budget)).IsCutFrom
      (p.solve (settings.withMaxPivots (budget + more))) budget more := by
  cases hempty : p.bounds.any Interval.isEmpty with
  | true =>
    have hreport : ∀ total, p.solve (settings.withMaxPivots total) = ⟨.ok .infeasible, []⟩ :=
      fun _ => if_pos hempty
    rw [hreport, hreport]
    exact LinearReport.isCutFrom_refl nofun (Nat.zero_le _)
  | false =>
    have hcut := isCutFrom_phaseOne p settings budget more
    have hends := Tableau.endsRun_run p.columnCount settings budget
      (p.standardForm.withObjective p.infeasibilityCost)
    rw [← phaseOne_withMaxPivots] at hends
    cases hended : (p.phaseOne (settings.withMaxPivots budget)).ending with
    | unbounded =>
      have hsame := hcut.settled (by rw [hended]; nofun)
      rw [solve_unbounded hempty hended, solve_unbounded hempty (by rw [hsame, hended]), hsame]
      exact LinearReport.isCutFrom_refl nofun ((iterations_ofPivots _ _).trans_le hends.within_budget)
    | outOfPivots =>
      -- the short solve ends within the first phase, with whose pivots the long one starts
      have hlength := hends.spent_budget hended
      have hbegins := ofPivots_phaseOne_begins (settings.withMaxPivots (budget + more)) hempty
      rw [solve_outOfPivots hempty hended]
      refine ⟨fun hresult => absurd rfl hresult, (ofPivots_begins 0 hcut.begins).trans hbegins,
        (iterations_ofPivots _ _).trans_le hends.within_budget, fun _ => (iterations_ofPivots _ _).trans hlength, ?_⟩
      intro _ hmore
      have hlong := (hbegins.filterMap Step.pivot?).length_le
      rw [length_pivots_ofPivots] at hlong
      exact hlength.symm.trans_lt ((hcut.goesOn hended hmore).trans_le hlong)
    | optimal =>
      have hsame := hcut.settled (by rw [hended]; nofun)
      rw [solve_optimal hempty hended, solve_optimal hempty (by rw [hsame, hended]), hsame]
      exact (isCutFrom_solveFrom settings hends.within_budget more _).after hends.within_budget

end LinearProgram

namespace LinearProblem

variable {α : Type} [Scalar α] {m n : Nat}

lemma isCutFrom_solve (p : LinearProblem α m n) (settings : SimplexSettings α) (budget more : Nat) :
    (p.solve (settings.withMaxPivots budget)).IsCutFrom
      (p.solve (settings.withMaxPivots (budget + more))) budget more := by
  cases hchecked : p.check with
  | error defect =>
    have hreport : ∀ total, p.solve (settings.withMaxPivots total) =
        ⟨.error (.invalid defect), []⟩ := by
      intro total
      unfold solve
      rw [hchecked]
    rw [hreport, hreport]
    exact LinearReport.isCutFrom_refl nofun (Nat.zero_le _)
  | ok program =>
    rw [solve_of_check hchecked, solve_of_check hchecked]
    exact program.isCutFrom_solve settings budget more

/-- A budget of pivots only truncates a solve, whatever the arithmetic does. The counted pivots with a small
budget are the first of those with a large one, and never more than the budget. The pivot limit is reported
exactly when some larger budget is used beyond the small one, and then the small one is spent. A solve that
does not report it gives the same report with every larger budget. -/
theorem solve_truncates (p : LinearProblem α m n) (settings : SimplexSettings α) {few many : Nat}
    (h : few ≤ many) :
    (p.solve (settings.withMaxPivots few)).pivots <+: (p.solve (settings.withMaxPivots many)).pivots ∧
    (p.solve (settings.withMaxPivots few)).iterations ≤ few ∧
    ((p.solve (settings.withMaxPivots few)).result = .ok .pivotLimit ↔
      ∃ more > few, few < (p.solve (settings.withMaxPivots more)).iterations) ∧
    ((p.solve (settings.withMaxPivots few)).result = .ok .pivotLimit →
      (p.solve (settings.withMaxPivots few)).iterations = few) ∧
    ((p.solve (settings.withMaxPivots few)).result ≠ .ok .pivotLimit →
      p.solve (settings.withMaxPivots many) = p.solve (settings.withMaxPivots few)) := by
  obtain ⟨more, rfl⟩ := Nat.exists_eq_add_of_le h
  have hcut := p.isCutFrom_solve settings few more
  refine ⟨hcut.begins.filterMap Step.pivot?, hcut.within, ⟨?_, ?_⟩, hcut.spent, hcut.settled⟩
  · intro hlimit
    exact ⟨few + 1, Nat.lt_succ_self few, (p.isCutFrom_solve settings few 1).goesOn hlimit one_pos⟩
  · rintro ⟨larger, hlarger, hlt⟩
    by_contra hresult
    obtain ⟨rest, rfl⟩ := Nat.exists_eq_add_of_le (Nat.le_of_lt hlarger)
    rw [(p.isCutFrom_solve settings few rest).settled hresult] at hlt
    exact absurd hcut.within (not_le.2 hlt)

/-- Two pivots are spent by the first phase alone, so the limit is met at the first pivot of the second one,
after an artificial was expelled. Three pivots are just enough, and thousands more change nothing. -/
theorem solve_truncates_dependent :
    (dependent.solve (SimplexSettings.standard.withMaxPivots 2)).pivots <+:
      (dependent.solve (SimplexSettings.standard.withMaxPivots 3)).pivots ∧
    (dependent.solve (SimplexSettings.standard.withMaxPivots 2)).result = .ok .pivotLimit ∧
    (dependent.solve (SimplexSettings.standard.withMaxPivots 2)).iterations = 2 ∧
    (dependent.solve (SimplexSettings.standard.withMaxPivots 3)).pivots = [(0, 3), (2, 0), (3, 1)] ∧
    (dependent.solve (SimplexSettings.standard.withMaxPivots 3)).result =
      .ok (.optimal #v[2, 0, 0] 2) ∧
    dependent.solve (SimplexSettings.standard.withMaxPivots 50000) =
      dependent.solve (SimplexSettings.standard.withMaxPivots 3) := by
  have hpivots : (dependent.solve (SimplexSettings.standard.withMaxPivots 3)).pivots =
      [(0, 3), (2, 0), (3, 1)] := by
    decide +kernel
  have solved : (dependent.solve (SimplexSettings.standard.withMaxPivots 3)).result =
      .ok (.optimal #v[2, 0, 0] 2) := by
    decide +kernel
  obtain ⟨hbegins, -, hlimit, hspent, -⟩ :=
    solve_truncates dependent SimplexSettings.standard (show 2 ≤ 3 by decide)
  obtain ⟨-, -, -, -, hsettled⟩ :=
    solve_truncates dependent SimplexSettings.standard (show 3 ≤ 50000 by decide)
  have hlimited := hlimit.2 ⟨3, by decide, by rw [LinearReport.iterations, hpivots]; decide⟩
  refine ⟨hbegins, hlimited, hspent hlimited, hpivots, solved, hsettled ?_⟩
  rw [solved]
  nofun

end LinearProblem

end IntegerProgram
