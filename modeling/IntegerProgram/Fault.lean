/-!
# Faults

A fault is a request that no caller should make: an index beyond the end, two lengths that should
agree, a total outside the range of its type. Operations on unchecked data answer with a fault in
place of a value.
-/

namespace IntegerProgram

/-- A request outside the domain of an operation. -/
inductive Fault where
  /-- The index `index` into a sequence of `length` entries. -/
  | outOfRange (index length : Nat)
  /-- A sequence of `found` entries where `expected` are needed. -/
  | wrongLength (expected found : Nat)
  /-- Rows of which some has not `expected` entries. -/
  | raggedRows (expected : Nat)
  /-- A total outside the range of 64-bit signed integers. -/
  | overflow (total : Int)
  deriving DecidableEq, Repr

namespace Fault

/-- The entry at an index, or the fault of reading beyond the end. -/
def entry {α : Type} (values : Array α) (i : Nat) : Except Fault α :=
  match values[i]? with
  | some v => .ok v
  | none => .error (.outOfRange i values.size)

/-- Replaces the entry at an index by its image, or faults beyond the end. -/
def modify {α : Type} (f : α → α) (values : Array α) (i : Nat) : Except Fault (Array α) :=
  if h : i < values.size then .ok (values.set i (f values[i]))
  else .error (.outOfRange i values.size)

/-- The same entries with their number in the type, or the fault of another length. -/
def vector {α : Type} (n : Nat) (values : Array α) : Except Fault (Vector α n) :=
  if h : values.size = n then .ok ⟨values, h⟩
  else .error (.wrongLength n values.size)

/-- The index as a position among `n`, or the fault of an index beyond the end. -/
def position (n i : Nat) : Except Fault (Fin n) :=
  if h : i < n then .ok ⟨i, h⟩ else .error (.outOfRange i n)

end Fault

end IntegerProgram
