import Mathlib
import IntegerProgram.Proofs.BranchBound.Partition

/-!
# The search ends on bounded instances

A search whose oracle answers with points of the boxes it is asked about, and whose integer variables stay
below a common bound, is finite, in exact numbers and in rounded ones.

* `Model.room` counts the whole numbers that the cuts of a node leave to a variable, less one. A split takes
  from the room of its variable (`Model.totalRoom_split`), so depths are limited by the room there is at the root
  (`Node.IsNarrowed`, `Model.Reaches.isNarrowed`).
* `Node.weight` is the size of a full binary tree under a node; a visit costs one and never adds weight
  (`Model.Visited.weight_children`), so limited depths limit the number of visits
  (`Model.Reaches.length_add_weight_le`).
* `Model.searchWith_terminates` puts the two together.
-/

namespace IntegerProgram

open ValuedScalar (value)

/-! ## Room -/

section Room

variable {α : Type} [Scalar α] [ValuedScalar α] {m n : Nat}

namespace Cut

/-- The least whole number that cuts leave to a variable, from a first one on. -/
def least (var : Nat) (first : ℤ) (cuts : List (Cut α)) : ℤ :=
  cuts.foldr (fun c low => if c.var = var then c.lower.elim low fun l => max low ⌊value l⌋ else low)
    first

/-- The greatest whole number that cuts leave to a variable, up to a last one. -/
def greatest (var : Nat) (last : ℤ) (cuts : List (Cut α)) : ℤ :=
  cuts.foldr (fun c high => if c.var = var then c.upper.elim high fun u => min high ⌈value u⌉ else high)
    last

variable {cuts : List (Cut α)} {i : Fin n} {x : Vector α n} {first last : ℤ}

section Cons

variable {var : Nat} {c : Cut α}

lemma least_cons_self (h : c.var = var) : least var first (c :: cuts) =
    c.lower.elim (least var first cuts) fun l => max (least var first cuts) ⌊value l⌋ :=
  if_pos h

lemma least_cons_of_ne (h : c.var ≠ var) : least var first (c :: cuts) = least var first cuts :=
  if_neg h

lemma greatest_cons_self (h : c.var = var) : greatest var last (c :: cuts) =
    c.upper.elim (greatest var last cuts) fun u => min (greatest var last cuts) ⌈value u⌉ :=
  if_pos h

lemma greatest_cons_of_ne (h : c.var ≠ var) :
    greatest var last (c :: cuts) = greatest var last cuts :=
  if_neg h

end Cons

omit [ValuedScalar α] in
/-- A point that a cut admits lies between its sides. -/
lemma AdmitsPoint.between {c : Cut α} (h : c.AdmitsPoint x) (hvar : c.var = i) :
    (∀ l ∈ c.lower, l ≤ x.get i) ∧ ∀ u ∈ c.upper, x.get i ≤ u := by
  have hadmits := h i hvar.symm
  unfold admits at hadmits
  rw [Bool.and_eq_true] at hadmits
  constructor
  · intro l hl
    rw [Option.mem_def.1 hl] at hadmits
    simpa [Scalar.isAbove] using hadmits.1
  · intro u hu
    rw [Option.mem_def.1 hu] at hadmits
    simpa [Scalar.isWithin] using hadmits.2

/-- A point that the cuts admit is not below the least whole number they leave. -/
lemma least_le (h : ∀ c ∈ cuts, c.AdmitsPoint x) (hfirst : first ≤ ⌊value (x.get i)⌋) :
    least i first cuts ≤ ⌊value (x.get i)⌋ := by
  induction cuts with
  | nil => exact hfirst
  | cons c rest ih =>
    obtain ⟨hc, hrest⟩ := List.forall_mem_cons.1 h
    by_cases hvar : c.var = i
    · rw [least_cons_self hvar]
      cases hlower : c.lower with
      | none => exact ih hrest
      | some l =>
        have hle := (hc.between hvar).1 l hlower
        exact max_le (ih hrest) (Int.floor_le_floor (ValuedScalar.value_le hle))
    · rw [least_cons_of_ne hvar]
      exact ih hrest

/-- A point that the cuts admit is not above the greatest whole number they leave. -/
lemma le_greatest (h : ∀ c ∈ cuts, c.AdmitsPoint x) (hlast : ⌈value (x.get i)⌉ ≤ last) :
    ⌈value (x.get i)⌉ ≤ greatest i last cuts := by
  induction cuts with
  | nil => exact hlast
  | cons c rest ih =>
    obtain ⟨hc, hrest⟩ := List.forall_mem_cons.1 h
    by_cases hvar : c.var = i
    · rw [greatest_cons_self hvar]
      cases hupper : c.upper with
      | none => exact ih hrest
      | some u =>
        have hle := (hc.between hvar).2 u hupper
        exact le_min (ih hrest) (Int.ceil_le_ceil (ValuedScalar.value_le hle))
    · rw [greatest_cons_of_ne hvar]
      exact ih hrest

end Cut

namespace Model

variable (model : Model α m n) (bound : ℚ)

/-- The whole number under the lower bound of a variable. -/
def floorBound (i : Fin n) : ℤ :=
  ⌊value (model.bounds.get i).lower⌋

/-- The whole number over the upper bound of a variable, or over `bound` where that is smaller or the
variable has no upper bound. -/
def ceilBound (i : Fin n) : ℤ :=
  ⌈(model.bounds.get i).upper.elim bound fun u => min (value u) bound⌉

/-- How far apart the whole numbers are that cuts leave to a variable. -/
def room (cuts : List (Cut α)) (i : Fin n) : ℤ :=
  Cut.greatest i (model.ceilBound bound i) cuts - Cut.least i (model.floorBound i) cuts

/-- The room of all integer variables together. -/
def totalRoom (cuts : List (Cut α)) : ℤ :=
  ∑ i ∈ model.integers.toFinset, model.room bound cuts i

/-- The depth that no node of a search exceeds if its integer variables stay below `bound`. -/
def depthLimit : ℕ :=
  (max 0 (∑ i ∈ model.integers.toFinset, (model.ceilBound bound i - model.floorBound i))).toNat

/-- A point is within a box, with the integer variables below a bound. -/
structure IsWithin (box : Box α) (x : Vector α n) : Prop where
  holds : box.Holds x
  bounded : ∀ i ∈ model.integers, value (x.get i) ≤ bound

/-- The reply about a box gives no point, or one within the box with the integer variables below a bound. -/
def AnswersWithin (box : Box α) (reply : Reply α) : Prop :=
  match reply.answer with
  | .ok (.optimal _ values) => ∀ h : values.size = n, model.IsWithin bound box ⟨values, h⟩
  | _ => True

instance (box : Box α) (x : Vector α n) : Decidable (model.IsWithin bound box x) :=
  haveI : Decidable (∀ i ∈ model.integers, value (x.get i) ≤ bound) := List.decidableBAll _ _
  decidable_of_iff (box.Holds x ∧ ∀ i ∈ model.integers, value (x.get i) ≤ bound)
    ⟨fun h => ⟨h.1, h.2⟩, fun h => ⟨h.holds, h.bounded⟩⟩

instance (box : Box α) : (reply : Reply α) → Decidable (model.AnswersWithin bound box reply)
  | ⟨.ok (.optimal _ values), _⟩ =>
    inferInstanceAs (Decidable (∀ h : values.size = n, model.IsWithin bound box ⟨values, h⟩))
  | ⟨.ok .infeasible, _⟩ => isTrue trivial
  | ⟨.error _, _⟩ => isTrue trivial

variable {model bound} {cuts : List (Cut α)} {x : Vector α n} {tol : α}

/-- The whole numbers next to a point that the cuts admit are left to its integer variables. -/
lemma room_around (hx : model.IsWithin bound model.box x) (hcuts : ∀ c ∈ cuts, c.AdmitsPoint x)
    {i : Fin n} (hi : i ∈ model.integers) :
    Cut.least i (model.floorBound i) cuts ≤ ⌊value (x.get i)⌋ ∧
      ⌈value (x.get i)⌉ ≤ Cut.greatest i (model.ceilBound bound i) cuts := by
  obtain ⟨hlower, hupper⟩ := holds_box_iff.1 hx.holds i
  constructor
  · exact Cut.least_le hcuts (Int.floor_le_floor (ValuedScalar.value_le hlower))
  · apply Cut.le_greatest hcuts
    apply Int.ceil_le_ceil
    cases hcap : (model.bounds.get i).upper with
    | none => exact hx.bounded i hi
    | some u => exact le_min (ValuedScalar.value_le (hupper u hcap)) (hx.bounded i hi)

/-- A cut changes the room of its own variable only. -/
lemma room_cons_of_ne {c : Cut α} {j : Fin n} (h : c.var ≠ j.val) :
    model.room bound (c :: cuts) j = model.room bound cuts j := by
  unfold room
  rw [Cut.greatest_cons_of_ne h, Cut.least_cons_of_ne h]

/-- The room that a cut above a value leaves to its variable. -/
lemma room_up {i : Fin n} {v : α} (htol : 0 ≤ tol) (hoff : tol < Scalar.fractionality v) :
    model.room bound (.up i v :: cuts) i = Cut.greatest i (model.ceilBound bound i) cuts -
      max (Cut.least i (model.floorBound i) cuts) ⌈value v⌉ := by
  have hceil : ⌊value (Scalar.ceil v)⌋ = ⌈value v⌉ := by
    rw [ValuedScalar.value_ceil htol hoff, Int.floor_intCast]
  rw [← hceil]
  exact congrArg₂ _ (Cut.greatest_cons_self rfl) (Cut.least_cons_self rfl)

/-- The room that a cut below a value leaves to its variable. -/
lemma room_down {i : Fin n} {v : α} (htol : 0 ≤ tol) (hoff : tol < Scalar.fractionality v) :
    model.room bound (.down i v :: cuts) i =
      min (Cut.greatest i (model.ceilBound bound i) cuts) ⌊value v⌋ -
        Cut.least i (model.floorBound i) cuts := by
  have hfloor : ⌈value (Scalar.floor v)⌉ = ⌊value v⌋ := by
    rw [ValuedScalar.value_floor htol hoff, Int.ceil_intCast]
  rw [← hfloor]
  exact congrArg₂ _ (Cut.greatest_cons_self rfl) (Cut.least_cons_self rfl)

/-- A split at a point that the cuts admit takes from the room of its variable and leaves some. -/
lemma room_split {i : Fin n} {c : Cut α} (htol : 0 ≤ tol) (hx : model.IsWithin bound model.box x)
    (hcuts : ∀ c ∈ cuts, c.AdmitsPoint x) (hi : i ∈ model.integers)
    (hoff : tol < Scalar.fractionality (x.get i))
    (hc : c = .up i (x.get i) ∨ c = .down i (x.get i)) :
    0 ≤ model.room bound (c :: cuts) i ∧
      model.room bound (c :: cuts) i < model.room bound cuts i := by
  obtain ⟨hlow, hhigh⟩ := room_around hx hcuts hi
  have hnext := ValuedScalar.ceil_value htol hoff
  have hroom : model.room bound cuts i = Cut.greatest i (model.ceilBound bound i) cuts -
      Cut.least i (model.floorBound i) cuts := rfl
  -- the value lies between two neighbours that the cuts leave, and each side gives up one of them
  rcases hc with rfl | rfl
  · rw [room_up htol hoff]
    omega
  · rw [room_down htol hoff]
    omega

/-- A split at a point that the cuts admit takes from the total room and leaves no variable without any. -/
lemma totalRoom_split {i : Fin n} {c : Cut α} (htol : 0 ≤ tol)
    (hx : model.IsWithin bound model.box x) (hcuts : ∀ c ∈ cuts, c.AdmitsPoint x)
    (hi : i ∈ model.integers) (hoff : tol < Scalar.fractionality (x.get i))
    (hc : c = .up i (x.get i) ∨ c = .down i (x.get i)) :
    0 ≤ model.totalRoom bound (c :: cuts) ∧
      model.totalRoom bound (c :: cuts) < model.totalRoom bound cuts := by
  obtain ⟨hsome, hless⟩ := room_split htol hx hcuts hi hoff hc
  have hother : ∀ j, i ≠ j → model.room bound (c :: cuts) j = model.room bound cuts j := by
    intro j hij
    apply room_cons_of_ne
    rcases hc with rfl | rfl
    · exact fun h => hij (Fin.ext h)
    · exact fun h => hij (Fin.ext h)
  constructor
  · apply Finset.sum_nonneg
    intro j hj
    by_cases hij : i = j
    · subst hij
      exact hsome
    · obtain ⟨hlow, hhigh⟩ := room_around hx hcuts (List.mem_toFinset.1 hj)
      have hle := Int.floor_le_ceil (value (x.get j))
      rw [hother j hij]
      unfold room
      omega
  · apply Finset.sum_lt_sum
    · intro j _
      by_cases hij : i = j
      · subst hij
        exact hless.le
      · exact (hother j hij).le
    · exact ⟨i, List.mem_toFinset.2 hi, hless⟩

end Model

end Room

/-! ## Created nodes -/

section Created

variable {σ α : Type} {m n : Nat}

/-- The children that a visit leaves. -/
def Visit.children (visit : Visit α) : List (Node α) :=
  visit.verdict.children visit.node visit.tree.nextId

/-- The nodes that a search creates: the root and the children that its visits leave. -/
def SearchRun.created (run : SearchRun σ α) : List (Node α) :=
  .root :: run.visits.flatMap Visit.children

variable [Scalar α] {model : Model α m n} {settings : Settings α} {oracle : Oracle σ α} {initial : σ}
  {tree : Tree α} {state : σ} {done : List (Visit α)}

/-- The pending and the explored nodes are those created. -/
lemma Model.Reaches.nodes_perm (reached : model.Reaches settings oracle initial tree state done) :
    (tree.nodes done).Perm (.root :: done.flatMap Visit.children) := by
  induction reached with
  | start => exact List.Perm.refl _
  | @step tree rest state state' done node visit reached popped visited ih =>
    have popped := Tree.pops_of_pop popped
    have visited := visited_of_visit visited
    have hchildren : visit.verdict.children node tree.nextId = visit.children := by
      unfold Visit.children
      rw [visited.node_eq, visited.tree_eq, popped.nextId]
    have hnodes := Tree.nodes_after done popped visited.node_eq visited.tree_eq
    rw [hchildren] at hnodes
    rw [List.flatMap_cons]
    exact hnodes.trans ((ih.append_left _).trans List.perm_middle)

end Created

/-! ## Depths -/

section Depth

variable {σ α : Type} [Scalar α] [ValuedScalar α] {m n : Nat} {model : Model α m n} {bound : ℚ}
  {settings : Settings α} {oracle : Oracle σ α} {node : Node α} {tree rest : Tree α}
  {state state' initial : σ} {visit : Visit α} {done : List (Visit α)}

/-- A node is the root, or it has used up room for each level that it is deep and has some left. -/
def Node.IsNarrowed (node : Node α) (model : Model α m n) (bound : ℚ) : Prop :=
  -- an empty box has negative room, but no point of it is ever split
  (node.cuts = [] ∧ node.depth = 0) ∨
  (model.box.IsDefined ∧ 0 ≤ model.totalRoom bound node.cuts ∧
    node.depth + model.totalRoom bound node.cuts ≤ model.totalRoom bound [])

/-- The room at the root limits the depth. -/
lemma Node.IsNarrowed.depth_le (h : node.IsNarrowed model bound) :
    node.depth ≤ model.depthLimit bound := by
  rcases h with ⟨-, hdepth⟩ | ⟨-, hroom, hle⟩
  · rw [hdepth]
    exact Nat.zero_le _
  · have hroot : model.totalRoom bound [] =
        ∑ i ∈ model.integers.toFinset, (model.ceilBound bound i - model.floorBound i) := rfl
    unfold Model.depthLimit
    rw [← hroot]
    omega

namespace Model

/-- The children of a visit have used up more room than their parent. -/
lemma Visited.isNarrowed_children
    (visited : model.Visited settings oracle node rest state visit state')
    (htol : 0 ≤ settings.integralityTol) (hcuts : ∀ c ∈ node.cuts, c.IsDefined ∧ c.var < n)
    (within : ∀ asked ∈ visit.asked, model.AnswersWithin bound asked.1 asked.2)
    (h : node.IsNarrowed model bound) (nextId : Nat) :
    ∀ child ∈ visit.verdict.children node nextId, child.IsNarrowed model bound := by
  cases visited with
  | emptyDomain => nofun
  | @asked box reply relaxation verdict _ left replied answered judged =>
    cases judged with
    | infeasible => nofun
    | dominated => nofun
    | candidate => nofun
    | @split objective x d missed chosen =>
      obtain ⟨i, hi, hoff, rfl⟩ := BranchingRule.select_some chosen
      have hwithin := within (box, reply) rfl
      unfold AnswersWithin at hwithin
      rw [answered] at hwithin
      have hwithin : model.IsWithin bound box x := hwithin x.size_toArray
      -- the point lies in the box of the node, so the split takes from the room that is left there
      obtain ⟨hbox, hadmits⟩ := admits_of_box left hcuts (h.imp And.left And.left) hwithin.holds
      have hchild : ∀ id c, c = .up i (x.get i) ∨ c = .down i (x.get i) →
          (node.child id c).IsNarrowed model bound := by
        intro id c hc
        obtain ⟨hsome, hless⟩ :=
          totalRoom_split htol ⟨hbox, hwithin.bounded⟩ hadmits hi hoff hc
        refine .inr ⟨hbox.isDefined model.bounds.size_toArray, hsome, ?_⟩
        have hnode : node.depth + model.totalRoom bound node.cuts ≤ model.totalRoom bound [] := by
          rcases h with ⟨hroot, hdepth⟩ | ⟨-, -, hle⟩
          · rw [hroot, hdepth]
            simp
          · exact hle
        show ((node.depth + 1 : ℕ) : ℤ) + model.totalRoom bound (c :: node.cuts) ≤ _
        push_cast
        omega
      intro child hmem
      rcases List.mem_pair.1 hmem with rfl | rfl
      · exact hchild _ _ (.inl rfl)
      · exact hchild _ _ (.inr rfl)

/-- All nodes of a search within bounds have used up room for their depths. -/
lemma Reaches.isNarrowed (htol : 0 ≤ settings.integralityTol)
    (reached : model.Reaches settings oracle initial tree state done)
    (within : ∀ visit ∈ done, ∀ asked ∈ visit.asked, model.AnswersWithin bound asked.1 asked.2) :
    ∀ node ∈ tree.nodes done, node.IsNarrowed model bound := by
  refine reached.nodes_induction ?_ ?_
  · exact .inl ⟨rfl, rfl⟩
  · intro visit hvisit hnode
    obtain ⟨_, _, _, _, -, -, visited⟩ := reached.exists_step visit hvisit
    have hcuts := (reached.isGrown htol).defined visit.node (Tree.mem_nodes_of_visit hvisit)
    exact (visited_of_visit visited).isNarrowed_children htol hcuts (within visit hvisit) hnode

end Model

end Depth

/-! ## Numbers of visits -/

section Weight

variable {σ α : Type} [Scalar α] {m n : Nat} {model : Model α m n} {settings : Settings α}
  {oracle : Oracle σ α} {node : Node α} {tree rest : Tree α} {state state' initial : σ}
  {visit : Visit α} {done : List (Visit α)} {limit : Nat}

/-- The size of a full binary tree that reaches from a node to a depth. -/
def Node.weight (limit : Nat) (node : Node α) : Nat :=
  2 ^ (limit + 1 - node.depth) - 1

omit [Scalar α] in
/-- A node within the depth has a weight. -/
lemma Node.weight_pos (h : node.depth ≤ limit) : 0 < node.weight limit := by
  have hpow : 2 ^ 1 ≤ 2 ^ (limit + 1 - node.depth) := Nat.pow_le_pow_right Nat.two_pos (by omega)
  unfold weight
  omega

omit [Scalar α] in
/-- A node weighs as much as two children and the node itself. -/
lemma Node.weight_child (id id' : Nat) (c c' : Cut α) (h : node.depth + 1 ≤ limit) :
    1 + (node.child id c).weight limit + (node.child id' c').weight limit = node.weight limit := by
  have hpow : 2 ^ (limit + 1 - node.depth) = 2 * 2 ^ (limit - node.depth) := by
    rw [← pow_succ']
    congr 1
    omega
  have hpos := Nat.two_pow_pos (limit - node.depth)
  have hchild : ∀ id c, (node.child id c).weight limit = 2 ^ (limit - node.depth) - 1 := by
    intro id c
    show 2 ^ (limit + 1 - (node.depth + 1)) - 1 = _
    rw [Nat.add_sub_add_right]
  rw [hchild, hchild]
  unfold weight
  omega

namespace Model

/-- The children of a visit weigh less than their parent. -/
lemma Visited.weight_children (visited : model.Visited settings oracle node rest state visit state')
    (nextId : Nat) (hnode : node.depth ≤ limit)
    (hchildren : ∀ child ∈ visit.verdict.children node nextId, child.depth ≤ limit) :
    1 + ((visit.verdict.children node nextId).map (Node.weight limit)).sum ≤ node.weight limit := by
  rcases visited.children_cases nextId with hnone | ⟨i, -, v, -, htwo⟩
  · rw [hnone]
    exact Node.weight_pos hnode
  · rw [htwo] at hchildren ⊢
    have hdepth : node.depth + 1 ≤ limit := hchildren _ List.mem_cons_self
    have hweight := Node.weight_child (nextId + 1) nextId (.up i v) (.down i v) hdepth
    simp only [List.map_cons, List.map_nil, List.sum_cons, List.sum_nil]
    omega

/-- The visits made and the weight of what is pending do not exceed the weight of the root. -/
lemma Reaches.length_add_weight_le (reached : model.Reaches settings oracle initial tree state done)
    (hdepth : ∀ node ∈ tree.nodes done, node.depth ≤ limit) :
    done.length + (tree.frontier.pending.map (Node.weight limit)).sum ≤ 2 ^ (limit + 1) - 1 := by
  induction reached with
  | start => exact (Nat.zero_add _).le
  | @step tree rest state state' done node visit reached popped visited ih =>
    have popped := Tree.pops_of_pop popped
    have visited := visited_of_visit visited
    -- the visited node leaves the frontier with its weight, of which the visit itself takes one
    have hnodes := Tree.nodes_after done popped visited.node_eq visited.tree_eq
    have hbefore : ∀ a ∈ tree.nodes done, a.depth ≤ limit := fun a ha =>
      hdepth a (hnodes.mem_iff.2 (List.mem_append_right _ ha))
    have hweight := visited.weight_children tree.nextId (hbefore node popped.mem) fun a ha =>
      hdepth a (hnodes.mem_iff.2 (List.mem_append_left _ ha))
    have ih := ih hbefore
    rw [popped.pending, List.map_cons, List.sum_cons] at ih
    unfold Visit.after
    rw [Tree.pending_settle, visited.tree_eq, visited.node_eq, popped.nextId, List.map_append,
      List.sum_append, List.length_cons]
    omega

end Model

end Weight

/-! ## The whole search -/

namespace Model

section Search

variable {σ α : Type} [Scalar α] [ValuedScalar α] {m n : Nat} {model : Model α m n} {bound : ℚ}
  {settings : Settings α} {clock : Nat → Nat} {oracle : Oracle σ α} {initial : σ}

/-- The search ends on bounded instances. If the oracle answers with points of the boxes it was asked about,
and the integer variables of these points stay below a bound, then no node lies deeper than the whole
numbers between the bounds allow, at most as many nodes are explored as a full binary tree of that depth has,
and a search that may explore so many never ends at the node limit. -/
theorem searchWith_terminates (htol : 0 ≤ settings.integralityTol)
    (within : ∀ visit ∈ (model.searchWith settings clock oracle initial).visits,
      ∀ asked ∈ visit.asked, model.AnswersWithin bound asked.1 asked.2) :
    (∀ node ∈ (model.searchWith settings clock oracle initial).created,
      node.depth ≤ model.depthLimit bound) ∧
    (model.searchWith settings clock oracle initial).visits.length ≤
      2 ^ (model.depthLimit bound + 1) - 1 ∧
    (2 ^ (model.depthLimit bound + 1) - 1 ≤ settings.maxNodes → ∀ last,
      (model.searchWith settings clock oracle initial).ending ≠ .finished .nodeLimit last) := by
  have hstate : ∀ tree state done, model.Reaches settings oracle initial tree state done →
      (model.searchWith settings clock oracle initial).visits = done.reverse →
      (∀ node ∈ tree.nodes done, node.depth ≤ model.depthLimit bound) ∧
      done.length + (tree.frontier.pending.map (Node.weight (model.depthLimit bound))).sum ≤
        2 ^ (model.depthLimit bound + 1) - 1 := by
    intro tree state done reached hvisits
    have hdepth : ∀ node ∈ tree.nodes done, node.depth ≤ model.depthLimit bound := by
      intro node hnode
      refine (reached.isNarrowed htol ?_ node hnode).depth_le
      intro visit hvisit
      exact within visit (hvisits ▸ List.mem_reverse.2 hvisit)
    exact ⟨hdepth, reached.length_add_weight_le hdepth⟩
  obtain ⟨tree, state, done, reached, hvisits⟩ :=
    model.exists_reaches settings clock oracle initial
  obtain ⟨hdepth, hcount⟩ := hstate tree state done reached hvisits
  refine ⟨?_, ?_, ?_⟩
  · intro node hnode
    apply hdepth
    rw [reached.nodes_perm.mem_iff]
    unfold SearchRun.created at hnode
    rw [hvisits] at hnode
    simpa using hnode
  · rw [hvisits, List.length_reverse]
    omega
  · intro hbudget last hending
    obtain ⟨hspent, hpending⟩ := explore_nodeLimit hending
    obtain ⟨done, reached, hvisits, -⟩ := explore_finished .start hending
    obtain ⟨hdepth, hcount⟩ := hstate last _ done reached hvisits
    -- what is pending weighs something, and the budget is spent
    obtain ⟨node, others, hfirst⟩ := List.exists_cons_of_ne_nil hpending
    have hnode : node ∈ last.nodes done := by
      unfold Tree.nodes
      rw [hfirst]
      exact List.mem_append_left _ List.mem_cons_self
    have hweight := Node.weight_pos (hdepth node hnode)
    rw [hvisits, List.length_reverse, List.length_nil, Nat.zero_add] at hspent
    rw [hfirst, List.map_cons, List.sum_cons] at hcount
    omega

end Search

/-- The oracle that answers with the lower bound of the first variable. -/
def lowermost : Oracle Unit Float := fun box state =>
  let bound := box[0]?.elim 0 (·.lower)
  (⟨.ok (.optimal bound #[bound]), []⟩, state)

/-- The limits are attained in rounded numbers: from one half on and below one there is room for one split,
and the three nodes of a binary tree of depth one are explored. -/
theorem searchWith_terminates_fromHalf : fromHalf.depthLimit 1 = 1 ∧
    (fromHalf.searchWith .standard id lowermost ()).visits.length = 2 ^ (1 + 1) - 1 ∧
    (∀ node ∈ (fromHalf.searchWith .standard id lowermost ()).created, node.depth ≤ 1) ∧
    ∀ last, (fromHalf.searchWith .standard id lowermost ()).ending ≠ .finished .nodeLimit last := by
  have hlimit : fromHalf.depthLimit 1 = 1 := by decide +kernel
  have within : ∀ visit ∈ (fromHalf.searchWith .standard id lowermost ()).visits,
      ∀ asked ∈ visit.asked, fromHalf.AnswersWithin 1 asked.1 asked.2 := by
    decide +kernel
  obtain ⟨hdepth, hcount, hending⟩ := searchWith_terminates (by decide +kernel) within
  rw [hlimit] at hdepth hending
  exact ⟨hlimit, by decide +kernel, hdepth, hending (by decide +kernel)⟩

end Model

end IntegerProgram
