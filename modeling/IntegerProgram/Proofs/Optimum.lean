import Mathlib
import IntegerProgram.Optimum
import IntegerProgram.Proofs.BranchBound.Relaxation
import IntegerProgram.Proofs.Encoding

/-!
# The fewest selections

Over exact scalars the optimum of a machine is the least number of selections that reach its target, for
both encodings. The parts come from elsewhere: `Model.Encodes` says which selections the integer points of
the encoded model stand for, and `Model.search_report` that the search finds the cheapest point up to a
slack of less than one. Costs being whole numbers, such a point is the cheapest
(`Model.Encodes.isLeast`).
-/

namespace IntegerProgram

variable {m n k : Nat}

/-- A natural number below `2 ^ 63` is reported as it is. -/
lemma Rational.toWhole_natCast {s : ℕ} (h : s < 2 ^ 63) : Scalar.toWhole (s : Rat) = s := by
  have hround : Scalar.round (s : Rat) = s := Rational.round_intCast s
  unfold Scalar.toWhole
  rw [hround]
  show max Scalar.wholeMin (min Scalar.wholeMax (Int.tdiv (s : Rat).num (s : Rat).den)) = _
  rw [Rat.num_natCast, Rat.den_natCast, Nat.cast_one, Int.tdiv_one]
  unfold Scalar.wholeMin Scalar.wholeMax
  omega

/-- No tolerance in the relaxations, none for integrality, less than one for pruning; and a search that
finds nothing is an error. -/
structure Settings.IsExact (settings : Settings Rat) : Prop where
  integralityTol : settings.integralityTol = 0
  pruneTol_nonneg : 0 ≤ settings.pruneTol
  pruneTol_lt_one : settings.pruneTol < 1
  simplex : settings.simplex.IsExact
  noSolution : settings.noSolution = .error

namespace Encoding

variable {a : SparseMatrix Rat m n} {A : Fin m → Fin n → ℤ} {y : Fin m → ℤ}

/-- The selections that reach a target: any numbers of columns that add up to it, or sets of columns that
agree with it modulo two. -/
def Selects (encoding : Encoding) (A : Fin m → Fin n → ℤ) (y : Fin m → ℤ) (x : Fin n → ℕ) : Prop :=
  match encoding with
  | direct => ∀ i, ∑ j, A i j * x j = y i
  | parity => (∀ j, x j ≤ 1) ∧ ∀ i, ∑ j, A i j * x j ≡ y i [ZMOD 2]

/-- The problems an encoding is meant for: all for the direct one, no negative entries and a binary target
for the one of parities. -/
def Suits (encoding : Encoding) (A : Fin m → Fin n → ℤ) (y : Fin m → ℤ) : Prop :=
  match encoding with
  | direct => True
  | parity => (∀ i j, 0 ≤ A i j) ∧ ∀ i, y i = 0 ∨ y i = 1

/-- An integer problem with columns is encoded by a model of its selections. -/
lemma exists_encode {encoding : Encoding} (hcolumns : 0 < n) (hA : ∀ i j, a.entry i j = A i j)
    (suits : encoding.Suits A y) :
    ∃ model, encoding.encode a (scalars y) = .ok model ∧ model.Encodes (encoding.Selects A y) := by
  unfold encode
  rw [if_neg hcolumns.ne']
  cases encoding with
  | direct =>
    obtain ⟨model, hmodel, hencodes⟩ := encodes_direct (y := y) hA
    refine ⟨model, ?_, hencodes⟩
    simp only [hmodel]
    rfl
  | parity =>
    obtain ⟨hentries, hbinary⟩ := suits
    obtain ⟨model, hmodel, hencodes⟩ := encodes_parity (y := y) hA
    have hselects : (fun x : Fin n → ℕ => (∀ j, x j ≤ 1) ∧
        ∀ i, ∃ surplus : ℕ, ∑ j, A i j * x j = y i + 2 * surplus) = Selects parity A y := by
      funext x
      refine propext (and_congr_right fun _ => forall_congr' fun i => ?_)
      apply exists_surplus_iff _ (hbinary i)
      exact Finset.sum_nonneg fun j _ => mul_nonneg (hentries i j) (Int.natCast_nonneg (x j))
    rw [hselects] at hencodes
    refine ⟨model, ?_, hencodes⟩
    simp only [hmodel]
    rfl

end Encoding

namespace Model

variable {model : Model Rat m k} {selects : (Fin n → ℕ) → Prop} {settings : Settings Rat}
  {clock : Nat → Nat}

/-- Without integrality tolerance only pruning has a price, which is less than one. -/
lemma slack_lt_one (exact : settings.IsExact) : model.slack settings < 1 := by
  unfold slack
  rw [exact.integralityTol, zero_mul]
  exact max_lt exact.pruneTol_lt_one one_pos

/-- A point that no integer point undercuts by one or more stands for the fewest selections. -/
lemma Encodes.isLeast (encodes : model.Encodes selects) {x : Vector Rat k} {slack : Rat}
    (hslack : slack < 1) (hx : model.box.Holds x) (hinteger : model.IntegerFeasible x)
    (hbest : ∀ z, model.box.Holds z → model.IntegerFeasible z →
      Vectors.inner model.cost x ≤ Vectors.inner model.cost z + slack) :
    ∃ least : ℕ, Vectors.inner model.cost x = least ∧
      IsLeast {total | ∃ s, selects s ∧ ∑ j, s j = total} least := by
  obtain ⟨s, hs, hcost⟩ := encodes.selection x hx hinteger
  refine ⟨∑ j, s j, hcost, ⟨s, hs, rfl⟩, ?_⟩
  rintro total ⟨t, ht, rfl⟩
  obtain ⟨z, hz, hfeasible, hcost'⟩ := encodes.point t ht
  have hle := hbest z hz hfeasible
  rw [hcost, hcost'] at hle
  have hlt : ((∑ j, s j : ℕ) : Rat) < (∑ j, t j : ℕ) + 1 := by linarith
  exact Nat.lt_succ_iff.1 (by exact_mod_cast hlt)

end Model

namespace Solution

variable {solution : Solution Rat}

/-- A number is reported for the best point of a complete search. -/
lemma report_ok {v : ℤ} (h : solution.report .error = .ok v) :
    solution.status.isLimit = false ∧ ∃ best ∈ solution.best, v = Scalar.toWhole best.objective := by
  obtain ⟨status, best, nodes, updates⟩ := solution
  cases status <;> cases best <;> cases h
  · exact ⟨rfl, _, rfl, rfl⟩
  · exact ⟨rfl, _, rfl, rfl⟩

/-- An error is reported for a complete search without a point or for a search at a limit. -/
lemma report_error {error : Error} (h : solution.report .error = .error error) :
    (error = .noSolution ∧ solution.status.isLimit = false ∧ solution.best = none) ∨
    ∃ incumbent, error = .nodeLimit incumbent ∨ error = .timeLimit incumbent := by
  obtain ⟨status, best, nodes, updates⟩ := solution
  cases status with
  | optimal =>
    cases best <;> cases h
    exact .inl ⟨rfl, rfl, rfl⟩
  | infeasible =>
    cases best <;> cases h
    exact .inl ⟨rfl, rfl, rfl⟩
  | nodeLimit =>
    cases h
    exact .inr ⟨_, .inl rfl⟩
  | timeLimit =>
    cases h
    exact .inr ⟨_, .inr rfl⟩

end Solution

namespace Machine

/-- No relaxation on the way to the optimum sees near ties. -/
def Sharp (machine : Machine Rat) (encoding : Encoding) (settings : Settings Rat)
    (clock : Nat → Nat) : Prop :=
  ∀ model ∈ (encoding.encode machine.matrix machine.target).toOption, model.Sharp settings clock

instance (machine : Machine Rat) (encoding : Encoding) (settings : Settings Rat)
    (clock : Nat → Nat) : Decidable (machine.Sharp encoding settings clock) :=
  inferInstanceAs (Decidable
    (∀ model ∈ (encoding.encode machine.matrix machine.target).toOption, _))

/-- The optimum of a machine is the least number of selections that reach its target, for every integer
problem that suits the encoding and every search without tolerances and near ties. A number is reported
only if it is the least, the absence of solutions only if there are none, and no relaxation is found
unbounded or numerically broken. -/
theorem optimum_isLeast (machine : Machine Rat) (encoding : Encoding) (settings : Settings Rat)
    (clock : Nat → Nat) {A : Fin machine.rows → Fin machine.cols → ℤ} {y : Fin machine.rows → ℤ}
    (hcolumns : 0 < machine.cols) (hA : ∀ i j, machine.matrix.entry i j = A i j)
    (hy : machine.target = Encoding.scalars y) (suits : encoding.Suits A y)
    (exact : settings.IsExact) (sharp : machine.Sharp encoding settings clock) :
    (∀ v, (machine.optimum encoding settings clock).result = .ok v →
      ∃ least : ℕ, IsLeast {total | ∃ x, encoding.Selects A y x ∧ ∑ j, x j = total} least ∧
        (least < 2 ^ 63 → v = least)) ∧
    ((machine.optimum encoding settings clock).result = .error .noSolution →
      ∀ x, ¬ encoding.Selects A y x) ∧
    (machine.optimum encoding settings clock).result ≠ .error (.oracle .unbounded) ∧
    (machine.optimum encoding settings clock).result ≠ .error (.linear .infeasibilityUnbounded) := by
  obtain ⟨model, hmodel, encodes⟩ := Encoding.exists_encode hcolumns hA suits
  have hsharp : model.Sharp settings clock := by
    apply sharp
    rw [hy, hmodel]
    rfl
  have hresult : (machine.optimum encoding settings clock).result =
      (model.search settings clock).solution.bind (·.report .error) := by
    unfold optimum
    rw [hy, hmodel, ← exact.noSolution]
  rw [hresult]
  cases hsolution : (model.search settings clock).solution with
  | ok solution =>
    have hreport := Model.search_report exact.integralityTol exact.simplex hsharp hsolution
    refine ⟨?_, ?_, ?_, ?_⟩
    · intro v hv
      obtain ⟨hlimit, best, hbest, rfl⟩ := Solution.report_ok hv
      obtain ⟨x, hobjective, hx, hinteger, hcheapest⟩ := (hreport hlimit).2 best hbest
      obtain ⟨least, hleast, hisLeast⟩ :=
        encodes.isLeast (Model.slack_lt_one exact) hx hinteger hcheapest
      refine ⟨least, hisLeast, ?_⟩
      intro hrange
      rw [hobjective, hleast]
      exact Rational.toWhole_natCast hrange
    · intro hnone x hx
      obtain ⟨z, hz, hfeasible, -⟩ := encodes.point x hx
      rcases Solution.report_error hnone with ⟨-, hlimit, hbest⟩ | ⟨_, h | h⟩
      · exact (hreport hlimit).1 hbest z hz hfeasible
      · cases h
      · cases h
    · intro h
      rcases Solution.report_error h with ⟨h, -⟩ | ⟨_, h | h⟩ <;> cases h
    · intro h
      rcases Solution.report_error h with ⟨h, -⟩ | ⟨_, h | h⟩ <;> cases h
  | error error =>
    have herror := Model.search_error exact.integralityTol exact.simplex hsharp
      ⟨0, encodes.nonneg⟩ hsolution
    refine ⟨nofun, ?_, ?_, ?_⟩
    · intro h
      cases h
      rcases herror with ⟨_, h⟩ | ⟨_, h⟩ | ⟨_, h⟩ <;> cases h
    · intro h
      cases h
      rcases herror with ⟨_, h⟩ | ⟨_, h⟩ | ⟨_, h⟩ <;> cases h
    · intro h
      cases h
      rcases herror with ⟨_, h⟩ | ⟨_, h⟩ | ⟨_, h⟩ <;> cases h

/-- Columns that contribute two and three, and the target seven. -/
def coins : Machine Rat where
  rows := 1
  cols := 2
  matrix := .ofRows #v[#v[2, 3]]
  target := #[7]

/-- A column that contributes two, and an odd target. -/
def odd : Machine Rat where
  rows := 1
  cols := 1
  matrix := .ofRows #v[#v[2]]
  target := #[1]

/-- The standard settings without tolerances. -/
def strict : Settings Rat :=
  { (Settings.standard : Settings Rat) with
    integralityTol := 0
    pruneTol := 0
    simplex := ⟨50, 0, 0, 0⟩ }

/-- Seven takes three columns of two and three, and no column of two has the parity of one. -/
theorem optimum_isLeast_coins :
    (∃ least : ℕ, IsLeast {total | ∃ x : Fin 2 → ℕ,
        Encoding.direct.Selects (fun _ : Fin 1 => ![2, 3]) (fun _ => 7) x ∧
        ∑ j, x j = total} least ∧ (least < 2 ^ 63 → (3 : ℤ) = least)) ∧
    ∀ x : Fin 1 → ℕ, ¬ Encoding.parity.Selects (fun (_ : Fin 1) (_ : Fin 1) => 2) (fun _ => 1) x := by
  have exact : strict.IsExact := ⟨rfl, le_rfl, one_pos, ⟨rfl, rfl, rfl⟩, rfl⟩
  have hcoins := optimum_isLeast coins .direct strict id (A := fun _ => ![2, 3]) (y := fun _ => 7)
    Nat.two_pos (by decide +kernel) (by decide +kernel) trivial exact (by decide +kernel)
  have suits : Encoding.parity.Suits (fun (_ : Fin 1) (_ : Fin 1) => 2) (fun _ => 1) :=
    ⟨fun _ _ => zero_le_two, fun _ => .inr rfl⟩
  have hodd := optimum_isLeast odd .parity strict id Nat.one_pos (by decide +kernel)
    (by decide +kernel) suits exact (by decide +kernel)
  have hthree : (coins.optimum .direct strict id).result = .ok 3 := by decide +kernel
  have hnone : (odd.optimum .parity strict id).result = .error .noSolution := by decide +kernel
  exact ⟨hcoins.1 3 hthree, hodd.2.1 hnone⟩

end Machine

end IntegerProgram
