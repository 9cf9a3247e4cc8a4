import IntegerProgram.Cut

/-!
# Search nodes

A node of the search stands for the box that a list of cuts leaves of the model's box. The frontier
holds the nodes that are created and not yet explored; the latest is explored first.
-/

namespace IntegerProgram

/-- A node: its number, its parent's number, its depth, and the cuts that lead to it, latest first. -/
structure Node (α : Type) where
  id : Nat
  parent : Option Nat
  depth : Nat
  cuts : List (Cut α)
  deriving DecidableEq, Repr

/-- The nodes still to explore, latest first, and the counts of what has passed through. -/
structure Frontier (α : Type) where
  pending : List (Node α)
  /-- How many nodes were ever pushed. -/
  added : Nat
  /-- How many nodes were ever popped. -/
  popped : Nat
  /-- The largest number of pending nodes there ever was. -/
  peak : Nat
  deriving DecidableEq, Repr

namespace Node

variable {α : Type}

/-- The node of the whole box. -/
def root : Node α :=
  ⟨0, none, 0, []⟩

/-- The child of a node under one more cut. -/
def child (parent : Node α) (id : Nat) (cut : Cut α) : Node α :=
  ⟨id, some parent.id, parent.depth + 1, cut :: parent.cuts⟩

/-- What the cuts of a node leave of a box; `none` if some variable has no value left. -/
def box [Scalar α] (node : Node α) (base : Box α) : Except Fault (Option (Box α)) := do
  let merged ← base.cutAll node.cuts
  return if merged.isEmpty then none else some merged

end Node

namespace Frontier

variable {α : Type}

/-- The frontier through which nothing has passed. -/
def empty : Frontier α :=
  ⟨[], 0, 0, 0⟩

/-- The number of pending nodes. -/
def size (f : Frontier α) : Nat :=
  f.pending.length

/-- Whether no node is pending. -/
def isEmpty (f : Frontier α) : Bool :=
  f.pending.isEmpty

/-- The frontier with one more node, which is explored next. -/
def push (f : Frontier α) (node : Node α) : Frontier α :=
  { pending := node :: f.pending
    added := f.added + 1
    popped := f.popped
    peak := max f.peak (f.size + 1) }

/-- The node to explore next and the frontier without it. -/
def pop? (f : Frontier α) : Option (Node α × Frontier α) :=
  match f.pending with
  | [] => none
  | node :: rest => some (node, { f with pending := rest, popped := f.popped + 1 })

end Frontier

end IntegerProgram
