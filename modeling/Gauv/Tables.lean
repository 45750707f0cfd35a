import Mathlib

/-!
# Tables

A map from keys to values as an `unordered_map` is used when nothing iterates
over it: a partial function.  `insert` keeps the entry that is there, and `set`
overwrites it.
-/

/-- A map from keys to values. -/
abbrev Table (κ β : Type*) := κ → Option β

namespace Table

variable {κ β : Type*} [DecidableEq κ] {t : Table κ β} {k k' : κ} {b b' : β}

def empty : Table κ β := fun _ => none

/-- `insert(k, b)`, which does nothing if the key is there. -/
def insert (t : Table κ β) (k : κ) (b : β) : Table κ β :=
  fun k' => if k' = k ∧ (t k).isNone then some b else t k'

/-- Store `b` under the key `k`. -/
def set (t : Table κ β) (k : κ) (b : β) : Table κ β := fun k' => if k' = k then some b else t k'

omit [DecidableEq κ] in
@[simp] theorem empty_apply (k : κ) : (empty : Table κ β) k = none := rfl

@[simp] theorem insert_self (h : t k = none) : t.insert k b k = some b := by
  rw [insert, if_pos ⟨rfl, by rw [h]; rfl⟩]

theorem insert_of_ne (h : k' ≠ k) : t.insert k b k' = t k' := if_neg fun hk => h hk.1

theorem insert_of_some (h : t k = some b') : t.insert k b = t := by
  funext k'
  rw [insert, if_neg]
  rw [h]
  simp

/-- What is stored stays. -/
theorem insert_mono (h : t k' = some b') : t.insert k b k' = some b' := by
  by_cases hk : k' = k
  · subst hk
    rw [insert_of_some h, h]
  · rw [insert_of_ne hk, h]

@[simp] theorem set_self : t.set k b k = some b := if_pos rfl

theorem set_of_ne (h : k' ≠ k) : t.set k b k' = t k' := if_neg h

end Table
