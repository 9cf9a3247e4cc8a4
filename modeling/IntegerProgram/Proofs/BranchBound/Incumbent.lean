import Mathlib
import IntegerProgram.Proofs.BranchBound.Completeness

/-!
# The incumbent of a run

Over exact scalars the incumbent is the earliest best candidate of the whole run, although candidates that
are no better are found on the way:

* `Model.candidates` are the candidates of a list of visits, computed anew from the replies to them.
* `Incumbent.Summarizes` relates an incumbent to the candidates that were offered: it is the first of the best
  (`Candidate.IsFirstLeast`), and it was replaced once for each candidate below all before it (`leftMinima`).
* `Incumbent.Summarizes.offer` is the step and `Model.Reaches.summarizes` the run;
  `Model.searchWith_firstLeast` reads the result off a solution.
-/

namespace IntegerProgram

variable {σ α : Type} {m n : Nat}

/-! ## Candidates in a row -/

namespace Candidate

/-- The first of the candidates whose objective is least. -/
def IsFirstLeast (best : Candidate Rat) (cs : List (Candidate Rat)) : Prop :=
  ∃ earlier later, cs = earlier ++ best :: later ∧
    (∀ c ∈ earlier, best.objective < c.objective) ∧ ∀ c ∈ later, best.objective ≤ c.objective

variable {best c : Candidate Rat} {cs : List (Candidate Rat)}

lemma IsFirstLeast.mem (h : best.IsFirstLeast cs) : best ∈ cs := by
  obtain ⟨earlier, later, rfl, -, -⟩ := h
  exact List.mem_append_right _ List.mem_cons_self

lemma IsFirstLeast.le (h : best.IsFirstLeast cs) (hc : c ∈ cs) : best.objective ≤ c.objective := by
  obtain ⟨earlier, later, rfl, hearlier, hlater⟩ := h
  rcases List.mem_append.1 hc with hc | hc
  · exact (hearlier c hc).le
  · rcases List.mem_cons.1 hc with rfl | hc
    · exact le_rfl
    · exact hlater c hc

/-- The first least candidate stays the first when one comes that is not below it. -/
lemma IsFirstLeast.concat (h : best.IsFirstLeast cs) (hle : best.objective ≤ c.objective) :
    best.IsFirstLeast (cs ++ [c]) := by
  obtain ⟨earlier, later, rfl, hearlier, hlater⟩ := h
  refine ⟨earlier, later ++ [c], by simp, hearlier, ?_⟩
  intro b hb
  rcases List.mem_append.1 hb with hb | hb
  · exact hlater b hb
  · rw [List.mem_singleton.1 hb]
    exact hle

/-- A candidate below all before it is the first least. -/
lemma isFirstLeast_concat (h : ∀ b ∈ cs, c.objective < b.objective) :
    c.IsFirstLeast (cs ++ [c]) :=
  ⟨cs, [], rfl, h, by simp⟩

/-- The objective of a rounded point is computed from it. -/
lemma objective_ofPoint [Scalar α] {point cost : Array α} {integers : List Nat} {c : Candidate α}
    (h : ofPoint point integers cost = .ok c) :
    c.objective = Scalar.dot cost.toList c.x.toList := by
  unfold ofPoint at h
  split at h
  · cases h
  · obtain ⟨x, -, h⟩ := Fault.bind_ok h
    cases h
    rfl

end Candidate

/-- The places of the candidates that are strictly below all before them. -/
def leftMinima (cs : List (Candidate Rat)) : Finset Nat :=
  (Finset.range cs.length).filter fun k =>
    ∀ c ∈ cs[k]?, ∀ b ∈ cs.take k, c.objective < b.objective

/-- One more candidate adds its own place, if it is below all before it. -/
lemma card_leftMinima_concat (cs : List (Candidate Rat)) (c : Candidate Rat) :
    (leftMinima (cs ++ [c])).card =
      (leftMinima cs).card + if ∀ b ∈ cs, c.objective < b.objective then 1 else 0 := by
  -- the places before the new one have the same candidates before them as they had
  have hbefore : ∀ k ∈ Finset.range cs.length,
      ((∀ c' ∈ (cs ++ [c])[k]?, ∀ b ∈ (cs ++ [c]).take k, c'.objective < b.objective) ↔
        ∀ c' ∈ cs[k]?, ∀ b ∈ cs.take k, c'.objective < b.objective) := by
    intro k hk
    have hk := Finset.mem_range.1 hk
    rw [List.getElem?_append_left hk, List.take_append_of_le_length hk.le]
  unfold leftMinima
  rw [List.length_append, List.length_singleton, Finset.range_add_one, Finset.filter_insert,
    Finset.filter_congr hbefore]
  by_cases hbelow : ∀ b ∈ cs, c.objective < b.objective
  · rw [if_pos hbelow, if_pos (by simpa using hbelow), Finset.card_insert_of_notMem (by simp)]
  · rw [if_neg hbelow, if_neg (by simpa using hbelow), Nat.add_zero]

/-! ## Incumbents -/

namespace Incumbent

/-- What an incumbent keeps of the candidates that were offered in a row. -/
structure Summarizes (incumbent : Incumbent Rat) (cs : List (Candidate Rat)) : Prop where
  isSome : cs ≠ [] → ∃ best, incumbent.best = some best
  first : ∀ best ∈ incumbent.best, best.IsFirstLeast cs
  updates : incumbent.updates = (leftMinima cs).card

variable {incumbent : Incumbent Rat} {cs : List (Candidate Rat)}

lemma summarizes_empty : (empty : Incumbent Rat).Summarizes [] :=
  ⟨absurd rfl, by simp [empty], rfl⟩

/-- A candidate improves on the incumbent just when it is below all that were offered. -/
lemma Summarizes.isImprovedBy_iff (h : incumbent.Summarizes cs) (c : Candidate Rat) :
    incumbent.isImprovedBy c.objective = true ↔ ∀ b ∈ cs, c.objective < b.objective := by
  rw [Incumbent.isImprovedBy_iff]
  constructor
  · intro himproved b hb
    obtain ⟨best, hbest⟩ := h.isSome (List.ne_nil_of_mem hb)
    exact (himproved best hbest).trans_le ((h.first best hbest).le hb)
  · intro hbelow best hbest
    exact hbelow best (h.first best hbest).mem

/-- An offer leaves the first least of the candidates, the offered one included. -/
lemma Summarizes.offer (h : incumbent.Summarizes cs) (c : Candidate Rat) :
    (incumbent.offer c).Summarizes (cs ++ [c]) := by
  unfold Incumbent.offer
  by_cases hbelow : ∀ b ∈ cs, c.objective < b.objective
  · rw [if_pos ((h.isImprovedBy_iff c).2 hbelow)]
    refine ⟨fun _ => ⟨c, rfl⟩, ?_, ?_⟩
    · rintro best ⟨⟩
      exact Candidate.isFirstLeast_concat hbelow
    · rw [card_leftMinima_concat, if_pos hbelow, h.updates]
  · rw [if_neg (mt (h.isImprovedBy_iff c).1 hbelow)]
    -- a candidate that is not below all of the others is not below the best of them
    have hkept : ∃ best ∈ incumbent.best, best.objective ≤ c.objective := by
      push Not at hbelow
      obtain ⟨b, hb, hle⟩ := hbelow
      obtain ⟨best, hbest⟩ := h.isSome (List.ne_nil_of_mem hb)
      exact ⟨best, hbest, ((h.first best hbest).le hb).trans hle⟩
    obtain ⟨best, hbest, hle⟩ := hkept
    refine ⟨fun _ => ⟨best, hbest⟩, ?_, ?_⟩
    · intro best' hbest'
      cases hbest.symm.trans hbest'
      exact (h.first best hbest).concat hle
    · rw [card_leftMinima_concat, if_neg hbelow, h.updates, Nat.add_zero]

end Incumbent

/-! ## Runs -/

/-- An optimum needs a candidate, and with a candidate a model is not infeasible. -/
lemma Tree.best_of_status {tree : Tree α} {status : Status}
    (h : (tree.pop? = none ∧ status = tree.exhaustedStatus) ∨ status.isLimit = true) :
    (status = .optimal → tree.incumbent.best ≠ none) ∧
    (status = .infeasible → tree.incumbent.best = none) := by
  rcases h with ⟨-, rfl⟩ | hlimit
  · cases hbest : tree.incumbent.best with
    | none => simp [exhaustedStatus, hbest]
    | some best => simp [exhaustedStatus, hbest]
  · constructor
    · rintro rfl
      cases hlimit
    · rintro rfl
      cases hlimit

/-- The candidate of a verdict. -/
def Verdict.candidate? : Verdict α → Option (Candidate α)
  | .candidate c => some c
  | _ => none

lemma Verdict.isSome_candidate? (verdict : Verdict α) :
    verdict.candidate?.isSome = decide (verdict.fate = .integerCandidate) := by
  cases verdict <;> rfl

/-- The point of the relaxation that a visit was told. -/
def Visit.point? (visit : Visit α) : Option (Array α) :=
  match visit.asked with
  | some (_, ⟨.ok (.optimal _ values), _⟩) => some values
  | _ => none

namespace Model

/-- The candidate of a visit that was recorded as one, computed anew from the point that the visit was told.
-/
def extract? [Scalar α] (model : Model α m n) (visit : Visit α) : Option (Candidate α) := do
  guard (visit.verdict.fate = .integerCandidate)
  let point ← visit.point?
  (Candidate.ofPoint point model.integerIndices model.cost.toArray).toOption

/-- The candidates of visits, in order. -/
def candidates [Scalar α] (model : Model α m n) (visits : List (Visit α)) : List (Candidate α) :=
  visits.filterMap model.extract?

section Extraction

variable [Scalar α] {model : Model α m n} {settings : Settings α} {oracle : Oracle σ α}
  {node : Node α} {tree rest : Tree α} {state state' initial : σ} {visit : Visit α}
  {done visits : List (Visit α)} {c : Candidate α}

/-- What a visit extracts is the candidate of its verdict. -/
lemma Visited.extract?_eq (visited : model.Visited settings oracle node rest state visit state') :
    model.extract? visit = visit.verdict.candidate? := by
  cases visited with
  | emptyDomain => rfl
  | @asked box reply relaxation verdict _ left replied answered judged =>
    cases judged with
    | infeasible => rfl
    | dominated => rfl
    | split => rfl
    | candidate missed integral rounded =>
      obtain ⟨_, journal⟩ := reply
      cases answered
      simp [extract?, Visit.point?, Verdict.candidate?, Verdict.fate, rounded, Except.toOption]

lemma Reaches.extract?_eq (reached : model.Reaches settings oracle initial tree state done) :
    ∀ visit ∈ done, model.extract? visit = visit.verdict.candidate? := by
  intro visit hvisit
  obtain ⟨_, _, _, _, -, -, visited⟩ := reached.exists_step visit hvisit
  exact (visited_of_visit visited).extract?_eq

lemma candidates_concat (model : Model α m n) (visits : List (Visit α)) (visit : Visit α) :
    model.candidates (visits ++ [visit]) =
      model.candidates visits ++ (model.extract? visit).toList := by
  unfold candidates
  rw [List.filterMap_append]
  cases hextract : model.extract? visit with
  | none => simp [hextract]
  | some c => simp [hextract]

/-- Each visit recorded as a candidate has one. -/
lemma length_candidates (h : ∀ visit ∈ visits, model.extract? visit = visit.verdict.candidate?) :
    (model.candidates visits).length =
      visits.countP (·.verdict.fate = .integerCandidate) := by
  unfold candidates
  rw [List.filterMap_congr h, List.length_filterMap_eq_countP]
  simp only [Verdict.isSome_candidate?]

/-- The objective of a candidate is the cost of its point. -/
lemma objective_of_mem_candidates (h : c ∈ model.candidates visits) :
    c.objective = Scalar.dot model.cost.toList c.x.toList := by
  obtain ⟨visit, -, hextract⟩ := List.mem_filterMap.1 h
  obtain ⟨_, -, hextract⟩ := Option.bind_eq_some_iff.1 hextract
  obtain ⟨point, -, hextract⟩ := Option.bind_eq_some_iff.1 hextract
  cases hpoint : Candidate.ofPoint point model.integerIndices model.cost.toArray with
  | error fault =>
    rw [hpoint] at hextract
    cases hextract
  | ok c' =>
    rw [hpoint] at hextract
    cases hextract
    exact Candidate.objective_ofPoint hpoint

end Extraction

variable {model : Model Rat m n} {settings : Settings Rat} {oracle : Oracle σ Rat} {node : Node Rat}
  {tree rest : Tree Rat} {state state' initial : σ} {visit : Visit Rat} {done : List (Visit Rat)}
  {cs : List (Candidate Rat)}

/-- A visit offers what it extracts. -/
lemma Visited.summarizes_after (popped : tree.Pops node rest)
    (visited : model.Visited settings oracle node rest state visit state')
    (h : tree.incumbent.Summarizes cs) :
    visit.after.incumbent.Summarizes (cs ++ (model.extract? visit).toList) := by
  rw [visited.extract?_eq, Visit.after, Tree.incumbent_settle, visited.tree_eq, popped.incumbent]
  cases visit.verdict with
  | candidate c => exact h.offer c
  | _ => simpa [Verdict.candidate?, Verdict.improve] using h

/-- The incumbent of a search is the first least of the candidates so far. -/
lemma Reaches.summarizes (reached : model.Reaches settings oracle initial tree state done) :
    tree.incumbent.Summarizes (model.candidates done.reverse) := by
  induction reached with
  | start => exact Incumbent.summarizes_empty
  | @step tree rest state state' done node visit reached popped visited ih =>
    rw [List.reverse_cons, candidates_concat]
    exact (visited_of_visit visited).summarizes_after (Tree.pops_of_pop popped) ih

/-- A visit keeps the incumbent or puts a strictly better candidate in its place. -/
lemma incumbent_after_cases (visit : Visit Rat) :
    visit.after.incumbent = visit.tree.incumbent ∨
    ∃ better ∈ visit.after.incumbent.best, ∀ best ∈ visit.tree.incumbent.best,
      better.objective < best.objective := by
  rw [Visit.after, Tree.incumbent_settle]
  cases visit.verdict with
  | candidate c =>
    rcases visit.tree.incumbent.offer_cases c with ⟨htaken, hbetter⟩ | ⟨hkept, -⟩
    · exact .inr ⟨c, htaken, hbetter⟩
    · exact .inl hkept
  | _ => exact .inl rfl

/-- The incumbent is the earliest best candidate of the whole run. Without a candidate there is no point, no
update and no optimum. Otherwise the point is that of the first candidate with the least objective, the
updates count the candidates below all before them, and no candidate has replaced an equal one. The
objective is the cost of the point. -/
theorem searchWith_firstLeast {clock : Nat → Nat} {run : SearchRun σ Rat} {solution : Solution Rat}
    (searched : model.searchWith settings clock oracle initial = run)
    (returned : run.solution = .ok solution) :
    (model.candidates run.visits).length =
      run.visits.countP (·.verdict.fate = .integerCandidate) ∧
    (model.candidates run.visits = [] → solution.best = none ∧ solution.incumbentUpdates = 0 ∧
      solution.status ≠ .optimal) ∧
    (model.candidates run.visits ≠ [] → solution.status ≠ .infeasible ∧
      ∃ best ∈ solution.best, best.IsFirstLeast (model.candidates run.visits)) ∧
    solution.incumbentUpdates = (leftMinima (model.candidates run.visits)).card ∧
    (∀ visit ∈ run.visits, visit.after.incumbent = visit.tree.incumbent ∨
      ∃ better ∈ visit.after.incumbent.best, ∀ best ∈ visit.tree.incumbent.best,
        better.objective < best.objective) ∧
    ∀ best ∈ solution.best, best.objective = Scalar.dot model.cost.toList best.x.toList := by
  subst searched
  obtain ⟨last, done, reached, hvisits, hsolution, hstatus⟩ := reaches_of_solution returned
  have hsummary := reached.summarizes
  rw [← hvisits] at hsummary
  have hbest : solution.best = last.incumbent.best := by rw [hsolution]; rfl
  have hupdates : solution.incumbentUpdates = last.incumbent.updates := by rw [hsolution]; rfl
  have hconclusive := Tree.best_of_status hstatus
  rw [hbest, hupdates]
  refine ⟨?_, ?_, ?_, hsummary.updates, fun visit _ => incumbent_after_cases visit, ?_⟩
  · refine length_candidates fun visit hvisit => reached.extract?_eq visit ?_
    rwa [hvisits, List.mem_reverse] at hvisit
  · intro hnone
    rw [hnone] at hsummary
    have habsent : last.incumbent.best = none :=
      Option.eq_none_iff_forall_not_mem.2 fun best hin => List.not_mem_nil (hsummary.first best hin).mem
    exact ⟨habsent, hsummary.updates, fun hoptimal => hconclusive.1 hoptimal habsent⟩
  · intro hsome
    obtain ⟨best, hin⟩ := hsummary.isSome hsome
    refine ⟨?_, best, hin, hsummary.first best hin⟩
    intro hinfeasible
    rw [hconclusive.2 hinfeasible] at hin
    cases hin
  · intro best hin
    exact objective_of_mem_candidates (hsummary.first best hin).mem

/-- Three integer variables with a row, two of them at a cost of two. -/
def level : Model Rat 1 3 where
  matrix := .ofRows #v[#v[3, 1, 1]]
  target := #v[10]
  cost := #v[2, 2, 0]
  bounds := #v[.atLeast 0, .atLeast 0, .atLeast 0]
  integers := List.finRange 3
  ascending := List.pairwise_lt_finRange 3

/-- Seven answers; the points of four of them are whole and cost ten, six, six and eight. -/
def levelAnswers : List (Relaxation Rat) :=
  [.optimal 0 #[3 / 2, 0, 4], .optimal 0 #[5 / 2, 0, 2], .optimal 0 #[4, 1, 0],
    .optimal 0 #[3, 0, 1], .optimal 0 #[1 / 2, 0, 8], .optimal 0 #[1, 2, 5],
    .optimal 0 #[0, 4, 6]]

/-- A search with four candidates, one of them equal to the best and one worse, both later. -/
theorem searchWith_firstLeast_level :
    (level.searchWith .standard id .replaying levelAnswers).solution =
      .ok ⟨.optimal, some ⟨6, #[3, 0, 1]⟩, 7, 2⟩ ∧
    level.candidates (level.searchWith .standard id .replaying levelAnswers).visits =
      [⟨10, #[4, 1, 0]⟩, ⟨6, #[3, 0, 1]⟩, ⟨6, #[1, 2, 5]⟩, ⟨8, #[0, 4, 6]⟩] ∧
    (∃ best ∈ some (⟨6, #[3, 0, 1]⟩ : Candidate Rat), best.IsFirstLeast
      (level.candidates (level.searchWith .standard id .replaying levelAnswers).visits)) ∧
    2 = (leftMinima
      (level.candidates (level.searchWith .standard id .replaying levelAnswers).visits)).card := by
  have returned : (level.searchWith .standard id .replaying levelAnswers).solution =
      .ok ⟨.optimal, some ⟨6, #[3, 0, 1]⟩, 7, 2⟩ := by
    decide +kernel
  have hcandidates : level.candidates
      (level.searchWith .standard id .replaying levelAnswers).visits =
        [⟨10, #[4, 1, 0]⟩, ⟨6, #[3, 0, 1]⟩, ⟨6, #[1, 2, 5]⟩, ⟨8, #[0, 4, 6]⟩] := by
    decide +kernel
  obtain ⟨-, -, hsome, hupdates, -, -⟩ := searchWith_firstLeast rfl returned
  have hne : level.candidates
      (level.searchWith .standard id .replaying levelAnswers).visits ≠ [] := by
    rw [hcandidates]
    exact List.cons_ne_nil _ _
  exact ⟨returned, hcandidates, (hsome hne).2, hupdates⟩

end Model

end IntegerProgram
