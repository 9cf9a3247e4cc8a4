import IntegerProgram.Fault
import IntegerProgram.Interval

/-!
# Cuts

A box gives an interval to each variable. A cut tightens the interval of one variable on one or both
sides; a box is cut by intersecting that interval. Cutting at a variable the box does not have is a
fault.
-/

namespace IntegerProgram

/-- One interval for each variable. -/
abbrev Box (α : Type) := Array (Interval α)

/-- The demand that variable `var` lie between `lower` and `upper`; an absent side demands nothing. -/
structure Cut (α : Type) where
  var : Nat
  lower : Option α
  upper : Option α
  deriving DecidableEq, Repr

namespace Cut

variable {α : Type} [Scalar α]

/-- The cut below a value: the variable is at most the whole number under it. -/
def down (var : Nat) (value : α) : Cut α :=
  ⟨var, none, some (Scalar.floor value)⟩

/-- The cut above a value: the variable is at least the whole number over it. -/
def up (var : Nat) (value : α) : Cut α :=
  ⟨var, some (Scalar.ceil value), none⟩

/-- The smaller of two upper bounds of which either may be absent. -/
def tighter : Option α → Option α → Option α
  | some a, some b => some (min a b)
  | a, none => a
  | none, b => b

/-- The part of an interval that the cut leaves. -/
def apply (cut : Cut α) (i : Interval α) : Interval α :=
  ⟨Scalar.raise i.lower cut.lower, tighter i.upper cut.upper⟩

/-- Whether the cut leaves a value in. -/
def admits (cut : Cut α) (v : α) : Bool :=
  Scalar.isAbove v cut.lower && Scalar.isWithin v cut.upper

end Cut

namespace Box

variable {α : Type} [Scalar α]

/-- Whether some variable has no value left. -/
def isEmpty (box : Box α) : Bool :=
  box.any Interval.isEmpty

/-- The box with one cut made. -/
def cut (box : Box α) (c : Cut α) : Except Fault (Box α) :=
  Fault.modify c.apply box c.var

/-- The box with all cuts made from left to right. -/
def cutAll (box : Box α) (cuts : List (Cut α)) : Except Fault (Box α) :=
  cuts.foldlM cut box

end Box

end IntegerProgram
