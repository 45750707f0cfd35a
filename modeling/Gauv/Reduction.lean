import Mathlib

/-!
# Parallel reductions

In a `parallel reduction` region without a work-sharing loop every thread of the
team runs the whole body on a private copy of the variable, started at the
identity of the operator, and the copies are then combined into the variable.
A sum comes out as often as there are threads; an operator that cancels equal
values keeps the result of a single thread only for a team of odd size.  In a
`parallel for` the threads share the iterations, and the loop gives what it
gives without threads, however the iterations are shared.
-/

namespace OpenMP

variable {α : Type*} {op : α → α → α} {e : α}

/-- The variable `x` after a `parallel reduction(op: x)` region with the given
body, run by `team` threads. -/
def parallelReduction (op : α → α → α) (e : α) (team : ℕ) (body : α → α) (x : α) : α :=
  (List.replicate team (body e)).foldl op x

theorem parallelReduction_succ (team : ℕ) (body : α → α) (x : α) :
    parallelReduction op e (team + 1) body x =
      parallelReduction op e team body (op x (body e)) := rfl

theorem parallelReduction_add {M : Type*} [AddMonoid M] (team : ℕ) (body : M → M) (x : M) :
    parallelReduction (· + ·) 0 team body x = x + team • body 0 := by
  induction team generalizing x with
  | zero => rw [zero_nsmul, add_zero]; rfl
  | succ team ih => rw [parallelReduction_succ, ih, succ_nsmul', add_assoc]

/-- Two threads with one value cancel each other. -/
theorem parallelReduction_cancel [hassoc : Std.Associative op] (he : ∀ a, op a e = a)
    (hself : ∀ a, op a a = e) (team : ℕ) (body : α → α) (x : α) :
    parallelReduction op e team body x = if team % 2 = 1 then op x (body e) else x := by
  induction team using Nat.twoStepInduction generalizing x with
  | zero => rfl
  | one => rfl
  | more team ih _ =>
      rw [parallelReduction_succ, parallelReduction_succ, hassoc.assoc, hself,
        he, ih, Nat.add_mod_right]

/-! ## Shared iterations -/

variable {ι : Type*}

/-- The variable `x` after a `parallel for reduction(op: x)` loop, each thread of
which combines what `body` gives for the iterations of its own chunk. -/
def parallelFor (op : α → α → α) (e : α) (body : ι → α) (chunks : List (List ι)) (x : α) : α :=
  (chunks.map fun chunk => chunk.foldl (fun a i => op a (body i)) e).foldl op x

/-- **The loop does not depend on how the iterations are shared**, nor on the order
in which a thread goes through its own. -/
theorem parallelFor_eq [hassoc : Std.Associative op] [hcomm : Std.Commutative op]
    (he : ∀ a, op a e = a) {body : ι → α} {chunks : List (List ι)} {l : List ι}
    (h : chunks.flatten.Perm l) (x : α) :
    parallelFor op e body chunks x = l.foldl (fun a i => op a (body i)) x := by
  have hfold : ∀ (is : List ι) (a b : α), is.foldl (fun a i => op a (body i)) (op a b) =
      op a (is.foldl (fun a i => op a (body i)) b) := by
    intro is a b
    induction is generalizing b with
    | nil => rfl
    | cons i is ih => rw [List.foldl_cons, List.foldl_cons, hassoc.assoc, ih]
  have hflat : parallelFor op e body chunks x =
      chunks.flatten.foldl (fun a i => op a (body i)) x := by
    clear h
    induction chunks generalizing x with
    | nil => rfl
    | cons chunk chunks ih =>
        rw [List.flatten_cons, List.foldl_append, ← ih, ← he x, hfold, he]
        rfl
  have : RightCommutative fun a i => op a (body i) :=
    ⟨fun a i j => by rw [hassoc.assoc, hassoc.assoc, hcomm.comm (body i)]⟩
  rw [hflat, h.foldl_eq]

end OpenMP
