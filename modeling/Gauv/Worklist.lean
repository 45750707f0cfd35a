import Mathlib

/-!
# Worklist search

A search that pops the head of a queue, skips it if it was visited, counts it if
it passes a test, and queues its successors.  Given enough fuel it counts each
node that can be reached from the start and passes the test once, whatever the
order of the successors.
-/

namespace Worklist

open Relation

variable {α : Type*} [DecidableEq α] (next : α → List α) (p : α → Bool)

/-- The loop: fuel, queue, visited nodes, count. -/
def search : ℕ → List α → List α → ℕ → ℕ
  | 0, _, _, n => n
  | _ + 1, [], _, n => n
  | fuel + 1, i :: q, visited, n =>
      if i ∈ visited then search fuel q visited n
      else search fuel (q ++ next i) (i :: visited) (if p i then n + 1 else n)

/-- `i` is reached from the queue. -/
def Reached (q : List α) (i : α) : Prop := ∃ s ∈ q, ReflTransGen (fun a b => b ∈ next a) s i

/-- The successors of visited nodes are visited or queued. -/
def Closed (q visited : List α) : Prop := ∀ v ∈ visited, ∀ w ∈ next v, w ∈ visited ∨ w ∈ q

/-- What the search can still do: work off the queue, and queue the successors
of the nodes that were not visited. -/
def work (support : Finset α) (q visited : List α) : ℕ :=
  q.length + ∑ i ∈ support.filter (fun i => i ∉ visited), (next i).length

variable {next p}

omit [DecidableEq α] in
theorem reached_nil (i : α) : ¬ Reached next [] i := by
  rintro ⟨s, hs, -⟩
  exact List.not_mem_nil hs

omit [DecidableEq α] in
/-- In a closed state a node reached from a visited one is visited, or reached
from the queue. -/
theorem Closed.of_reflTransGen {q visited : List α} (hc : Closed next q visited) {v i : α}
    (hv : v ∈ visited) (h : ReflTransGen (fun a b => b ∈ next a) v i) :
    i ∈ visited ∨ Reached next q i := by
  induction h with
  | refl => exact Or.inl hv
  | @tail b c _ hbc ih =>
      rcases ih with hb | ⟨s, hs, hsb⟩
      · rcases hc b hb c hbc with hcv | hcq
        · exact Or.inl hcv
        · exact Or.inr ⟨c, hcq, .refl⟩
      · exact Or.inr ⟨s, hs, hsb.tail hbc⟩

omit [DecidableEq α] in
/-- Skipping a visited node loses nothing. -/
theorem Closed.skip {i : α} {q visited : List α} (hc : Closed next (i :: q) visited)
    (hi : i ∈ visited) : Closed next q visited ∧
      ∀ j, j ∈ visited ∨ Reached next (i :: q) j ↔ j ∈ visited ∨ Reached next q j := by
  have hc' : Closed next q visited := fun v hv w hw => by
    rcases hc v hv w hw with h | h
    · exact Or.inl h
    · rcases List.mem_cons.1 h with rfl | h
      · exact Or.inl hi
      · exact Or.inr h
  refine ⟨hc', fun j => ⟨?_, ?_⟩⟩
  · rintro (hj | ⟨s, hs, hsj⟩)
    · exact Or.inl hj
    · rcases List.mem_cons.1 hs with rfl | hs
      · exact hc'.of_reflTransGen hi hsj
      · exact Or.inr ⟨s, hs, hsj⟩
  · rintro (hj | ⟨s, hs, hsj⟩)
    · exact Or.inl hj
    · exact Or.inr ⟨s, List.mem_cons_of_mem _ hs, hsj⟩

omit [DecidableEq α] in
/-- Visiting a node moves it out of the queue and its successors in. -/
theorem Closed.visit {i : α} {q visited : List α} (hc : Closed next (i :: q) visited) :
    Closed next (q ++ next i) (i :: visited) ∧
      ∀ j, j ∈ visited ∨ Reached next (i :: q) j ↔
        j ∈ i :: visited ∨ Reached next (q ++ next i) j := by
  have hc' : Closed next (q ++ next i) (i :: visited) := fun v hv w hw => by
    rcases List.mem_cons.1 hv with rfl | hv
    · exact Or.inr (List.mem_append_right _ hw)
    · rcases hc v hv w hw with h | h
      · exact Or.inl (List.mem_cons_of_mem _ h)
      · rcases List.mem_cons.1 h with rfl | h
        · exact Or.inl (List.mem_cons_self ..)
        · exact Or.inr (List.mem_append_left _ h)
  refine ⟨hc', fun j => ⟨?_, ?_⟩⟩
  · rintro (hj | ⟨s, hs, hsj⟩)
    · exact Or.inl (List.mem_cons_of_mem _ hj)
    · rcases List.mem_cons.1 hs with rfl | hs
      · exact hc'.of_reflTransGen (List.mem_cons_self ..) hsj
      · exact Or.inr ⟨s, List.mem_append_left _ hs, hsj⟩
  · rintro (hj | ⟨s, hs, hsj⟩)
    · rcases List.mem_cons.1 hj with rfl | hj
      · exact Or.inr ⟨j, List.mem_cons_self .., .refl⟩
      · exact Or.inl hj
    · rcases List.mem_append.1 hs with hs | hs
      · exact Or.inr ⟨s, List.mem_cons_of_mem _ hs, hsj⟩
      · exact Or.inr ⟨i, List.mem_cons_self .., .head hs hsj⟩

section Work

variable {support : Finset α} {i : α} {q visited : List α}

theorem work_skip : work next support (i :: q) visited = work next support q visited + 1 := by
  rw [work, work, List.length_cons]
  omega

theorem work_visit (hsupp : ∀ i, next i ≠ [] → i ∈ support) (hi : i ∉ visited) :
    work next support (i :: q) visited =
      work next support (q ++ next i) (i :: visited) + 1 := by
  have hsum : ∑ j ∈ support.filter (fun j => j ∉ visited), (next j).length =
      (next i).length + ∑ j ∈ support.filter (fun j => j ∉ i :: visited), (next j).length := by
    have herase : support.filter (fun j => j ∉ i :: visited) =
        (support.filter fun j => j ∉ visited).erase i := by
      ext j
      simp only [Finset.mem_filter, Finset.mem_erase, List.mem_cons, not_or]
      tauto
    rw [herase]
    by_cases hmem : i ∈ support
    · exact (Finset.add_sum_erase _ _ (Finset.mem_filter.2 ⟨hmem, hi⟩)).symm
    · have hnil : next i = [] := by
        by_contra hne
        exact hmem (hsupp i hne)
      rw [Finset.erase_eq_of_notMem fun h => hmem (Finset.mem_filter.1 h).1, hnil]
      simp
  rw [work, work, hsum, List.length_cons, List.length_append]
  omega

end Work

/-- With enough fuel the search counts the nodes of `T` that pass the test,
where `T` holds what is visited or reached. -/
theorem search_eq_card {support T : Finset α} (hsupp : ∀ i, next i ≠ [] → i ∈ support)
    {fuel : ℕ} {q visited : List α} {n : ℕ} (hfuel : work next support q visited < fuel)
    (hc : Closed next q visited) (hT : ∀ i, i ∈ T ↔ i ∈ visited ∨ Reached next q i) :
    search next p fuel q visited n =
      n + (T.filter fun i => p i = true ∧ i ∉ visited).card := by
  induction fuel generalizing q visited n with
  | zero => exact absurd hfuel (Nat.not_lt_zero _)
  | succ fuel ih =>
      cases q with
      | nil =>
          have hempty : (T.filter fun i => p i = true ∧ i ∉ visited) = ∅ := by
            refine Finset.filter_false_of_mem fun i hi hpi => ?_
            exact ((hT i).1 hi).elim hpi.2 (reached_nil i)
          rw [search, hempty, Finset.card_empty, add_zero]
      | cons i q =>
          rw [search]
          split
          · rename_i hi
            obtain ⟨hc', hiff⟩ := hc.skip hi
            rw [work_skip] at hfuel
            exact ih (by omega) hc' fun j => (hT j).trans (hiff j)
          · rename_i hi
            obtain ⟨hc', hiff⟩ := hc.visit
            rw [work_visit hsupp hi] at hfuel
            rw [ih (by omega) hc' fun j => (hT j).trans (hiff j)]
            have hmem : i ∈ T := (hT i).2 (Or.inr ⟨i, List.mem_cons_self .., .refl⟩)
            -- the visited node is counted now, and no more later
            have hset : (T.filter fun j => p j = true ∧ j ∉ i :: visited) =
                (T.filter fun j => p j = true ∧ j ∉ visited).erase i := by
              ext j
              simp only [Finset.mem_filter, Finset.mem_erase, List.mem_cons, not_or]
              tauto
            rw [hset]
            by_cases hp : p i = true
            · have hin : i ∈ T.filter fun j => p j = true ∧ j ∉ visited :=
                Finset.mem_filter.2 ⟨hmem, hp, hi⟩
              rw [if_pos hp, ← Finset.card_erase_add_one hin]
              omega
            · have hout : i ∉ T.filter fun j => p j = true ∧ j ∉ visited :=
                fun h => hp (Finset.mem_filter.1 h).2.1
              rw [if_neg hp, Finset.erase_eq_of_notMem hout]

/-- **What the search counts**: the nodes that are reached and pass the test. -/
theorem search_eq_ncard {support : Finset α} (hsupp : ∀ i, next i ≠ [] → i ∈ support)
    {fuel : ℕ} {q : List α} (hfuel : work next support q [] < fuel) :
    search next p fuel q [] 0 = {i | p i = true ∧ Reached next q i}.ncard := by
  classical
  -- what is reached was queued at the start or is a successor
  have hfin : {i | Reached next q i}.Finite := by
    refine ((q ++ support.toList.flatMap next).toFinset.finite_toSet).subset ?_
    rintro i ⟨s, hs, hsi⟩
    rw [Finset.mem_coe, List.mem_toFinset, List.mem_append]
    rcases ReflTransGen.cases_tail hsi with rfl | ⟨b, -, hb⟩
    · exact Or.inl hs
    · refine Or.inr (List.mem_flatMap.2 ⟨b, ?_, hb⟩)
      exact Finset.mem_toList.2 (hsupp b (List.ne_nil_of_mem hb))
  rw [search_eq_card (T := hfin.toFinset) hsupp hfuel (fun v hv => absurd hv List.not_mem_nil)
    (by simp), zero_add, ← Set.ncard_coe_finset]
  congr 1
  ext i
  simp [and_comm]

/-! ## The search, step by step -/

/-- The queue, the visited nodes and the count. -/
structure State (α : Type*) where
  queue : List α
  visited : List α
  count : ℕ

variable (next p) in
/-- One pass of the loop; with an empty queue nothing happens any more. -/
def step (s : State α) : State α :=
  match s.queue with
  | [] => s
  | i :: q =>
      if i ∈ s.visited then { s with queue := q }
      else ⟨q ++ next i, i :: s.visited, if p i then s.count + 1 else s.count⟩

/-- A pass that finds the head of the queue visited. -/
theorem step_skip {i : α} {q visited : List α} {n : ℕ} (hi : i ∈ visited) :
    step next p ⟨i :: q, visited, n⟩ = ⟨q, visited, n⟩ := if_pos hi

/-- A pass that visits the head of the queue. -/
theorem step_visit {i : α} {q visited : List α} {n : ℕ} (hi : i ∉ visited) :
    step next p ⟨i :: q, visited, n⟩ =
      ⟨q ++ next i, i :: visited, if p i then n + 1 else n⟩ := if_neg hi

theorem iterate_step_nil (n : ℕ) (visited : List α) (k : ℕ) :
    (step next p)^[n] ⟨[], visited, k⟩ = ⟨[], visited, k⟩ :=
  Function.iterate_fixed rfl n

/-- The loop with fuel `n` is `n` passes. -/
theorem search_eq_iterate (n : ℕ) (q visited : List α) (k : ℕ) :
    search next p n q visited k = ((step next p)^[n] ⟨q, visited, k⟩).count := by
  induction n generalizing q visited k with
  | zero => rfl
  | succ n ih =>
      cases q with
      | nil => rw [search, iterate_step_nil]
      | cons i q =>
          rw [search, Function.iterate_succ_apply]
          split
          · rename_i hi
            rw [step_skip hi, ih]
          · rename_i hi
            rw [step_visit hi, ih]

/-- The queue is empty after as many passes as there was work. -/
theorem queue_iterate_eq_nil {support : Finset α} (hsupp : ∀ i, next i ≠ [] → i ∈ support)
    {n : ℕ} {q visited : List α} (k : ℕ) (hn : work next support q visited ≤ n) :
    ((step next p)^[n] ⟨q, visited, k⟩).queue = [] := by
  induction n generalizing q visited k with
  | zero =>
      rw [work] at hn
      have hq : q.length = 0 := by omega
      exact List.length_eq_zero_iff.1 hq
  | succ n ih =>
      cases q with
      | nil => rw [iterate_step_nil]
      | cons i q =>
          rw [Function.iterate_succ_apply]
          by_cases hi : i ∈ visited
          · rw [step_skip hi]
            rw [work_skip] at hn
            exact ih k (by omega)
          · rw [step_visit hi]
            rw [work_visit hsupp hi] at hn
            exact ih _ (by omega)

/-- What holds of the starting nodes and is handed to successors holds of every
node that is ever queued. -/
theorem forall_queue_iterate {P : α → Prop} (hP : ∀ a, P a → ∀ b ∈ next a, P b) (n : ℕ)
    {q visited : List α} (k : ℕ) (hq : ∀ a ∈ q, P a) :
    ∀ a ∈ ((step next p)^[n] ⟨q, visited, k⟩).queue, P a := by
  induction n generalizing q visited k with
  | zero => exact hq
  | succ n ih =>
      cases q with
      | nil => rwa [iterate_step_nil]
      | cons i q =>
          obtain ⟨hi, hq⟩ := List.forall_mem_cons.1 hq
          rw [Function.iterate_succ_apply]
          by_cases hv : i ∈ visited
          · rw [step_skip hv]
            exact ih k hq
          · rw [step_visit hv]
            exact ih _ (List.forall_mem_append.2 ⟨hq, hP i hi⟩)

end Worklist
