import Mathlib

/-!
# Queues in blocks

A double-ended queue keeps its elements in blocks of one size.  Taking the head
out of the last slot of its block frees the block, so what a reference to the
head finds afterwards depends on the slot the head was in.
-/

/-- A queue: its elements, and how many slots of the first block come before the
head. -/
structure BlockQueue (α : Type*) where
  items : List α
  front : ℕ
  deriving DecidableEq, Repr

namespace BlockQueue

variable {α : Type*}

/-- A new queue starts at the first slot of a block. -/
def empty : BlockQueue α := ⟨[], 0⟩

/-- Put an element at the end. -/
def pushBack (d : BlockQueue α) (x : α) : BlockQueue α := ⟨d.items ++ [x], d.front⟩

/-- The head is in the last of the `size` slots of its block. -/
def AtBlockEnd (size : ℕ) (d : BlockQueue α) : Prop := d.front + 1 = size

instance decidableAtBlockEnd (size : ℕ) (d : BlockQueue α) : Decidable (d.AtBlockEnd size) :=
  inferInstanceAs (Decidable (d.front + 1 = size))

/-- Take the head out, and the block with it when that was its last slot. -/
def popFront (size : ℕ) (d : BlockQueue α) : BlockQueue α :=
  ⟨d.items.tail, if d.front + 1 = size then 0 else d.front + 1⟩

@[simp] theorem items_empty : (empty : BlockQueue α).items = [] := rfl

@[simp] theorem items_pushBack (d : BlockQueue α) (x : α) :
    (d.pushBack x).items = d.items ++ [x] := rfl

@[simp] theorem front_pushBack (d : BlockQueue α) (x : α) : (d.pushBack x).front = d.front := rfl

@[simp] theorem items_popFront (size : ℕ) (d : BlockQueue α) :
    (d.popFront size).items = d.items.tail := rfl

/-- The head never moves on by more than one slot. -/
theorem front_popFront_le (size : ℕ) (d : BlockQueue α) :
    (d.popFront size).front ≤ d.front + 1 := by
  unfold popFront
  split
  · exact Nat.zero_le _
  · exact le_rfl

end BlockQueue
