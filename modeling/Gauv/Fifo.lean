import Mathlib

/-!
# FIFO channels

A log of messages put into channels and taken out of them.  As long as each take
pops the message it returns, what was put into a channel is what was taken out
of it followed by its queue; from this the takes are a prefix of the puts, and a
channel is empty exactly when all its messages were taken.
-/

namespace Fifo

variable {κ μ : Type*} [DecidableEq κ]

/-- What happens to a channel. -/
inductive Event (κ μ : Type*) where
  | put (k : κ) (m : μ)
  | take (k : κ) (m : μ)

/-- The messages put into a channel, in order. -/
def puts (k : κ) (log : List (Event κ μ)) : List μ :=
  log.filterMap fun
    | .put k' m => if k' = k then some m else none
    | .take _ _ => none

/-- The messages taken out of a channel, in order. -/
def takes (k : κ) (log : List (Event κ μ)) : List μ :=
  log.filterMap fun
    | .put _ _ => none
    | .take k' m => if k' = k then some m else none

variable {k : κ} {m f : μ} {log : List (Event κ μ)}

theorem puts_put (k' : κ) : puts k (log ++ [.put k' m]) =
    puts k log ++ if k' = k then [m] else [] := by
  rw [puts, List.filterMap_append]
  by_cases h : k' = k <;> simp [h, puts]

theorem puts_take (k' : κ) : puts k (log ++ [.take k' m]) = puts k log := by
  rw [puts, List.filterMap_append]
  simp [puts]

theorem takes_put (k' : κ) : takes k (log ++ [.put k' m]) = takes k log := by
  rw [takes, List.filterMap_append]
  simp [takes]

theorem takes_take (k' : κ) : takes k (log ++ [.take k' m]) =
    takes k log ++ if k' = k then [m] else [] := by
  rw [takes, List.filterMap_append]
  by_cases h : k' = k <;> simp [h, takes]

/-- What was put into each of the channels `K` is what was taken, then what is
queued. -/
def Balanced (K : Set κ) (queue : κ → List μ) (log : List (Event κ μ)) : Prop :=
  ∀ k ∈ K, puts k log = takes k log ++ queue k

namespace Balanced

variable {K : Set κ} {queue queue' : κ → List μ}

theorem of_eq (h : Balanced K queue log) (hq : ∀ k ∈ K, queue' k = queue k) :
    Balanced K queue' log := fun k hk => by rw [h k hk, hq k hk]

/-- A message put at the end of its queue keeps the balance. -/
theorem put (h : Balanced K queue log)
    (hq : ∀ k' ∈ K, queue' k' = queue k' ++ if k = k' then [m] else []) :
    Balanced K queue' (log ++ [.put k m]) := by
  intro k' hk'
  rw [puts_put, takes_put, hq k' hk', h k' hk', List.append_assoc]

/-- The message at the head of its queue may be taken. -/
theorem take (h : Balanced K queue log)
    (hq : ∀ k' ∈ K, queue k' = (if k = k' then [m] else []) ++ queue' k') :
    Balanced K queue' (log ++ [.take k m]) := by
  intro k' hk'
  rw [puts_take, takes_take, h k' hk', hq k' hk', List.append_assoc]

/-- A take that keeps the balance returned the head of the queue. -/
theorem take_inv (h : Balanced K queue log) (h' : Balanced K queue' (log ++ [.take k m]))
    (hk : k ∈ K) (hq : queue k = f :: queue' k) : m = f := by
  have h' := h' k hk
  rw [puts_take, takes_take, if_pos rfl, h k hk, hq, List.append_assoc] at h'
  have h' := List.append_cancel_left h'
  exact (List.cons.inj h').1.symm

theorem takes_isPrefix (h : Balanced K queue log) (hk : k ∈ K) : takes k log <+: puts k log :=
  ⟨queue k, (h k hk).symm⟩

/-- A channel is empty exactly when all its messages were taken. -/
theorem queue_eq_nil_iff (h : Balanced K queue log) (hk : k ∈ K) :
    queue k = [] ↔ takes k log = puts k log := by
  rw [h k hk]
  exact List.self_eq_append_right.symm

end Balanced

end Fifo
