import Mathlib

/-!
# Registries of names

Objects are created one after the other.  Each asks for a name of its own or
gets one generated from the number of names registered so far, and its name is
registered unless it is taken.  The `i`-th object is meant to be called what it
asked for or the `i`-th generated name.  That is so, and all names are distinct,
exactly when these intended names are distinct: the first clash leaves two
objects with one name and stops the count.
-/

namespace Registry

variable {α : Type*} [DecidableEq α] (gen : ℕ → α)

/-- The names of the objects, in the order of their creation, and the names that
are registered. -/
structure State (α : Type*) where
  created : List α
  registered : List α

def State.empty : State α := ⟨[], []⟩

/-- Create an object that asks for the given name, or for a generated one. -/
def State.request (s : State α) (r : Option α) : State α :=
  let name := r.getD (gen s.registered.length)
  ⟨s.created ++ [name],
    if name ∈ s.registered then s.registered else name :: s.registered⟩

/-- Create objects in order. -/
def run (rs : List (Option α)) : State α := rs.foldl (State.request gen) .empty

/-- The intended names. -/
def intended (rs : List (Option α)) : List α := rs.mapIdx fun i r => r.getD (gen i)

/-- The names asked for are distinct, and none is generated for another object. -/
def Apart (rs : List (Option α)) : Prop :=
  (∀ (i j : ℕ) (c : α), rs[i]? = some (some c) → rs[j]? = some (some c) → i = j) ∧
    ∀ (i j : ℕ) (c : α), rs[i]? = some (some c) → rs[j]? = some none → c ≠ gen j

variable {gen}

theorem run_concat (rs : List (Option α)) (r : Option α) :
    run gen (rs ++ [r]) = (run gen rs).request gen r := by
  rw [run, List.foldl_append]
  rfl

omit [DecidableEq α] in
theorem intended_concat (rs : List (Option α)) (r : Option α) :
    intended gen (rs ++ [r]) = intended gen rs ++ [r.getD (gen rs.length)] := by
  rw [intended, List.mapIdx_append]
  simp [intended]

omit [DecidableEq α] in
theorem length_intended (rs : List (Option α)) : (intended gen rs).length = rs.length :=
  List.length_mapIdx

variable (gen) in
theorem length_created_run (rs : List (Option α)) : (run gen rs).created.length = rs.length := by
  induction rs using List.reverseRecOn with
  | nil => rfl
  | append_singleton rs r ih =>
      rw [run_concat, State.request, List.length_append, List.length_append, ih]
      rfl

variable (gen) in
/-- What is registered are the names of the objects, each once. -/
theorem registered_run (rs : List (Option α)) : (run gen rs).registered.Nodup ∧
    ∀ name, name ∈ (run gen rs).registered ↔ name ∈ (run gen rs).created := by
  induction rs using List.reverseRecOn with
  | nil => exact ⟨List.nodup_nil, fun _ => Iff.rfl⟩
  | append_singleton rs r ih =>
      obtain ⟨hnodup, hmem⟩ := ih
      rw [run_concat, State.request]
      simp only [List.mem_append, List.mem_singleton, ← hmem]
      split
      · rename_i h
        refine ⟨hnodup, fun name => ⟨Or.inl, ?_⟩⟩
        rintro (h' | rfl)
        · exact h'
        · exact h
      · rename_i h
        refine ⟨List.nodup_cons.2 ⟨h, hnodup⟩, fun name => ?_⟩
        rw [List.mem_cons, or_comm]

/-- **The names of the objects are distinct** exactly when the intended ones are,
and then they are the intended ones. -/
theorem created_run_nodup_iff (rs : List (Option α)) :
    ((run gen rs).created.Nodup ↔ (intended gen rs).Nodup) ∧
      ((intended gen rs).Nodup → (run gen rs).created = intended gen rs) := by
  induction rs using List.reverseRecOn with
  | nil => exact ⟨Iff.rfl, fun _ => rfl⟩
  | append_singleton rs r ih =>
      obtain ⟨hiff, heq⟩ := ih
      by_cases hn : (intended gen rs).Nodup
      · -- no clash so far: the count is the number of objects
        have hcreated := heq hn
        have hlen : (run gen rs).registered.length = rs.length := by
          obtain ⟨hnodup, hmem⟩ := registered_run gen rs
          rw [← length_created_run gen rs]
          exact ((List.perm_ext_iff_of_nodup hnodup (hiff.2 hn)).2 hmem).length_eq
        have hnext : (run gen (rs ++ [r])).created = intended gen (rs ++ [r]) := by
          rw [run_concat, intended_concat, State.request, hlen, hcreated]
        rw [hnext]
        exact ⟨Iff.rfl, fun _ => rfl⟩
      · have hleft : ¬ (run gen (rs ++ [r])).created.Nodup := fun h => by
          rw [run_concat] at h
          exact hn (hiff.1 (List.Nodup.of_append_left h))
        have hright : ¬ (intended gen (rs ++ [r])).Nodup := fun h => by
          rw [intended_concat] at h
          exact hn (List.Nodup.of_append_left h)
        exact ⟨iff_of_false hleft hright, fun h => absurd h hright⟩

omit [DecidableEq α] in
theorem getElem?_intended (rs : List (Option α)) (i : ℕ) :
    (intended gen rs)[i]? = rs[i]?.map fun r => r.getD (gen i) := List.getElem?_mapIdx

omit [DecidableEq α] in
/-- Distinct intended names, said of the requests. -/
theorem nodup_intended_iff (hgen : Function.Injective gen) (rs : List (Option α)) :
    (intended gen rs).Nodup ↔ Apart gen rs := by
  have hat : ∀ (i : ℕ) (r : Option α), rs[i]? = some r →
      (intended gen rs)[i]? = some (r.getD (gen i)) := by
    intro i r h
    rw [getElem?_intended, h]
    rfl
  constructor
  · intro hn
    have hinj : ∀ (i j : ℕ) (c : α), (intended gen rs)[i]? = some c →
        (intended gen rs)[j]? = some c → i = j := fun i j c hi hj =>
      (List.getElem?_inj (List.getElem?_eq_some_iff.1 hi).1 hn).1 (hi.trans hj.symm)
    refine ⟨fun i j c hi hj => hinj i j c (hat i _ hi) (hat j _ hj), ?_⟩
    rintro i j _ hi hj rfl
    have hij := hinj i j (gen j) (hat i _ hi) (hat j _ hj)
    rw [hij, hj] at hi
    exact absurd hi (by simp)
  · rintro ⟨hchosen, hgenerated⟩
    rw [List.nodup_iff_getElem?_ne_getElem?]
    intro i j hij hj heq
    rw [length_intended] at hj
    have hi := List.getElem?_eq_getElem (hij.trans hj)
    have hj := List.getElem?_eq_getElem hj
    rw [hat i _ hi, hat j _ hj, Option.some.injEq] at heq
    -- both asked, one asked, or both generated
    cases hri : rs[i] with
    | some c =>
        rw [hri] at hi heq
        cases hrj : rs[j] with
        | some d =>
            rw [hrj] at hj heq
            exact hij.ne (hchosen i j c hi (hj.trans (congrArg (some ∘ some) heq.symm)))
        | none =>
            rw [hrj] at hj heq
            exact hgenerated i j c hi hj heq
    | none =>
        rw [hri] at hi heq
        cases hrj : rs[j] with
        | some d =>
            rw [hrj] at hj heq
            exact hgenerated j i d hj hi heq.symm
        | none =>
            rw [hrj] at heq
            exact hij.ne (hgen heq)

omit [DecidableEq α] in
theorem Apart.of_isPrefix {rs rs' : List (Option α)} (h : Apart gen rs) (hp : rs' <+: rs) :
    Apart gen rs' := by
  have hat : ∀ (i : ℕ) (r : Option α), rs'[i]? = some r → rs[i]? = some r := by
    obtain ⟨t, rfl⟩ := hp
    intro i r hi
    rw [List.getElem?_append_left (List.getElem?_eq_some_iff.1 hi).1, hi]
  exact ⟨fun i j c hi hj => h.1 i j c (hat i _ hi) (hat j _ hj),
    fun i j c hi hj => h.2 i j c (hat i _ hi) (hat j _ hj)⟩

omit [DecidableEq α] in
/-- Generated names alone are distinct. -/
theorem apart_replicate (n : ℕ) : Apart gen (List.replicate n none) := by
  have hnone : ∀ (i : ℕ) (c : α), (List.replicate n (none : Option α))[i]? ≠ some (some c) := by
    intro i c h
    rw [List.getElem?_replicate] at h
    split at h
    · exact absurd h (by simp)
    · exact absurd h (by simp)
  exact ⟨fun i _ c hi => absurd hi (hnone i c), fun i _ c hi => absurd hi (hnone i c)⟩

end Registry
