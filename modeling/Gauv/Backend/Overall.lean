import Gauv.Reduction
import Gauv.Backend.Enumeration
import Gauv.Backend.Privacy

/-!
# The overall answer

`try_all_possibilities` runs the prover on every start graph, in an OpenMP loop
whose threads share the graphs, and reports the conjunction of the answers.  The
report does not depend on how the graphs are shared.  `prove()` reports yes
exactly when every `prove(I)` up to the threshold does, and what its yes means is
that no set of at most `T` parties learns anything.
-/

namespace Gauv

namespace Prover

/-! ## The loop over the start graphs -/

/-- How the threads share `n` iterations, each taking its own in order. -/
structure Schedule (n : ℕ) where
  chunks : List (List ℕ)
  covers : chunks.flatten.Perm (List.range n)

/-- Without OpenMP there is one thread. -/
def Schedule.serial (n : ℕ) : Schedule n := ⟨[List.range n], by simp⟩

/-- `proved &= answer`; a run that aborts ends the program. -/
def andAnswer (proved answer : Option Bool) : Option Bool := do
  return (← proved) && (← answer)

instance : Std.Associative andAnswer where
  assoc a b c := by
    cases a <;> cases b <;> cases c <;> simp [andAnswer, Bool.and_assoc]

instance : Std.Commutative andAnswer where
  comm a b := by
    cases a <;> cases b <;> simp [andAnswer, Bool.and_comm]

theorem andAnswer_true (a : Option Bool) : andAnswer a (some true) = a := by
  cases a <;> simp [andAnswer]

theorem andAnswer_eq_true {a b : Option Bool} :
    andAnswer a b = some true ↔ a = some true ∧ b = some true := by
  cases a <;> cases b <;> simp [andAnswer]

/-- The answer for the `i`-th start graph. -/
def algorithmAt (env : Graph → Env) (parties : List PartyDecl) (graphs : List Graph) (i : ℕ) :
    Option Bool := do
  let g ← graphs[i]?
  tryProving (env g) g parties

/-- `Prover::try_all_possibilities`, with the choices the platform makes in the run
on each start graph.  The answer is what it reports. -/
def tryAllPossibilities (env : Graph → Env) (parties : List PartyDecl) (graphs : List Graph)
    (schedule : Schedule graphs.length) : Option Bool :=
  OpenMP.parallelFor andAnswer (some true) (algorithmAt env parties graphs) schedule.chunks
    (some true)

section Loop

variable {env : Graph → Env} {parties : List PartyDecl} {graphs : List Graph}

/-- The report is that of the serial loop. -/
theorem tryAllPossibilities_eq (schedule : Schedule graphs.length) :
    tryAllPossibilities env parties graphs schedule =
      (List.range graphs.length).foldl
        (fun proved i => andAnswer proved (algorithmAt env parties graphs i)) (some true) :=
  OpenMP.parallelFor_eq andAnswer_true schedule.covers _

/-- The report is yes when the answer is yes for every start graph. -/
theorem tryAllPossibilities_iff (schedule : Schedule graphs.length) :
    tryAllPossibilities env parties graphs schedule = some true ↔
      ∀ g ∈ graphs, tryProving (env g) g parties = some true := by
  have hfold : ∀ (is : List ℕ) (a : Option Bool),
      is.foldl (fun proved i => andAnswer proved (algorithmAt env parties graphs i)) a =
        some true ↔ a = some true ∧ ∀ i ∈ is, algorithmAt env parties graphs i = some true := by
    intro is a
    induction is generalizing a with
    | nil => simp
    | cons i is ih => rw [List.foldl_cons, ih, andAnswer_eq_true, List.forall_mem_cons, and_assoc]
  rw [tryAllPossibilities_eq, hfold]
  constructor
  · rintro ⟨-, h⟩ g hmem
    obtain ⟨i, hg⟩ := List.getElem?_of_mem hmem
    have hi := h i (List.mem_range.2 (lt_of_getElem?_some hg))
    rwa [algorithmAt, hg] at hi
  · intro h
    refine ⟨rfl, fun i hi => ?_⟩
    have hg := List.getElem?_eq_getElem (List.mem_range.1 hi)
    rw [algorithmAt, hg]
    exact h _ (List.mem_of_getElem? hg)

end Loop

/-! ## All numbers of corrupted parties at once -/

/-- `Prover::prove()`. -/
def prove (gb : GraphBase) (classes : List (List PartyDecl)) (parties : List PartyDecl) (T : ℕ)
    (env : Graph → Env) (schedule : Schedule (startGraphs gb classes parties T).length) :
    Option Bool :=
  tryAllPossibilities env parties (startGraphs gb classes parties T) schedule

/-- `Prover::prove(I)`. -/
def proveExactly (gb : GraphBase) (classes : List (List PartyDecl)) (parties : List PartyDecl)
    (T I : ℕ) (env : Graph → Env)
    (schedule : Schedule (startGraphsExactly gb classes parties T I).length) : Option Bool :=
  tryAllPossibilities env parties (startGraphsExactly gb classes parties T I) schedule

section Enumerated

variable {gb : GraphBase} {classes : List (List PartyDecl)} {parties : List PartyDecl} {T I : ℕ}

/-- No more members of the classes are corrupted than the vector says. -/
theorem card_corruptedOf_le (classes : List (List PartyDecl)) (ks : List ℕ) :
    (corruptedOf classes ks).card ≤ ks.sum := by
  induction classes generalizing ks with
  | nil => simp [corruptedOf]
  | cons cls classes ih =>
      cases ks with
      | nil => simp [corruptedOf]
      | cons k ks =>
          rw [corruptedOf, List.sum_cons]
          refine (Finset.card_union_le _ _).trans (Nat.add_le_add ?_ (ih ks))
          exact (List.toFinset_card_le _).trans (List.length_take_le k cls)

theorem mem_startGraphs {g : Graph} : g ∈ startGraphs gb classes parties T ↔
    ∃ ks, IsChoice classes ks ∧ ks.sum ≤ T ∧ 0 < (corruptedOf classes ks).card ∧
      g = gb.toGraph parties.length T (corruptedOf classes ks) := by
  rw [startGraphs, searchAllPossibilities_eq, List.mem_map]
  constructor
  · rintro ⟨ks, hks, rfl⟩
    obtain ⟨hks, hacc⟩ := List.mem_filter.1 hks
    obtain ⟨hc, hle⟩ := mem_choices.1 hks
    rw [accepts, decide_eq_true_iff, Finset.empty_union] at hacc
    exact ⟨ks, hc, hle, hacc.1, by rw [Finset.empty_union]⟩
  · rintro ⟨ks, hc, hle, hpos, rfl⟩
    refine ⟨ks, List.mem_filter.2 ⟨mem_choices.2 ⟨hc, hle⟩, ?_⟩, by rw [Finset.empty_union]⟩
    rw [accepts, decide_eq_true_iff, Finset.empty_union]
    exact ⟨hpos, Or.inr rfl⟩

theorem mem_startGraphsExactly {g : Graph} : g ∈ startGraphsExactly gb classes parties T I ↔
    ∃ ks, IsChoice classes ks ∧ ks.sum = I ∧ 0 < (corruptedOf classes ks).card ∧
      g = gb.toGraph parties.length T (corruptedOf classes ks) := by
  rw [startGraphsExactly, searchAllPossibilities_eq, List.mem_map]
  constructor
  · rintro ⟨ks, hks, rfl⟩
    obtain ⟨hks, hacc⟩ := List.mem_filter.1 hks
    obtain ⟨hc, hle⟩ := mem_choices.1 hks
    rw [accepts, decide_eq_true_iff, Finset.empty_union] at hacc
    have hsub : I - ks.sum = 0 := by simpa using hacc.2
    exact ⟨ks, hc, by omega, hacc.1, by rw [Finset.empty_union]⟩
  · rintro ⟨ks, hc, rfl, hpos, rfl⟩
    refine ⟨ks, List.mem_filter.2 ⟨mem_choices.2 ⟨hc, le_rfl⟩, ?_⟩, by rw [Finset.empty_union]⟩
    rw [accepts, decide_eq_true_iff, Finset.empty_union]
    exact ⟨hpos, Or.inl ⟨rfl, Nat.sub_self _⟩⟩

/-- The start graphs of `prove()` are those of `prove(1)`, ..., `prove(T)`. -/
theorem mem_startGraphs_iff {g : Graph} : g ∈ startGraphs gb classes parties T ↔
    ∃ I, 1 ≤ I ∧ I ≤ T ∧ g ∈ startGraphsExactly gb classes parties T I := by
  rw [mem_startGraphs]
  constructor
  · rintro ⟨ks, hc, hle, hpos, rfl⟩
    exact ⟨ks.sum, hpos.trans_le (card_corruptedOf_le _ _), hle,
      mem_startGraphsExactly.2 ⟨ks, hc, rfl, hpos, rfl⟩⟩
  · rintro ⟨I, -, hI, hg⟩
    obtain ⟨ks, hc, rfl, hpos, rfl⟩ := mem_startGraphsExactly.1 hg
    exact ⟨ks, hc, hI, hpos, rfl⟩

/-- **The two entry points agree.**  For any classes, any graph and any schedules,
`prove()` reports yes exactly when `prove(I)` does for every number of corrupted
parties up to the threshold; for none, and for more than the classes have, it
does so without running the prover. -/
theorem prove_iff_proveExactly (env : Graph → Env)
    (schedule : Schedule (startGraphs gb classes parties T).length)
    (schedules : ∀ I, Schedule (startGraphsExactly gb classes parties T I).length) :
    (prove gb classes parties T env schedule = some true ↔
      ∀ I, 1 ≤ I → I ≤ T →
        proveExactly gb classes parties T I env (schedules I) = some true) ∧
    ∀ I, I = 0 ∨ (classes.map List.length).sum < I →
      proveExactly gb classes parties T I env (schedules I) = some true := by
  refine ⟨?_, fun I hI => ?_⟩
  · rw [prove, tryAllPossibilities_iff]
    constructor
    · intro h I hpos hle
      rw [proveExactly, tryAllPossibilities_iff]
      exact fun g hg => h g (mem_startGraphs_iff.2 ⟨I, hpos, hle, hg⟩)
    · intro h g hg
      obtain ⟨I, hpos, hle, hg⟩ := mem_startGraphs_iff.1 hg
      exact (tryAllPossibilities_iff (schedules I)).1 (h I hpos hle) g hg
  · rw [proveExactly, tryAllPossibilities_iff]
    intro g hg
    obtain ⟨ks, hc, rfl, hpos, -⟩ := mem_startGraphsExactly.1 hg
    have hle := card_corruptedOf_le classes ks
    have hsum : ks.sum ≤ (classes.map List.length).sum :=
      List.Forall₂.sum_le_sum (List.forall₂_map_right_iff.2 hc)
    omega

/-- With singleton classes every set of at most `T` parties is corrupted in a start
graph. -/
theorem mem_startGraphs_singletons (gb : GraphBase) {C : Finset PartyDecl} (hn : parties.Nodup)
    (hC : C ⊆ parties.toFinset) (hpos : 1 ≤ C.card) (hle : C.card ≤ T) :
    gb.toGraph parties.length T C ∈ startGraphs gb (parties.map fun p => [p]) parties T := by
  have henum := enumerates_startGraphs gb parties T
    (fun cls hc => by
      obtain ⟨p, -, rfl⟩ := List.mem_map.1 hc
      exact List.nodup_singleton p)
    (by
      rw [List.pairwise_map]
      exact hn.imp fun hne => by simpa using hne.symm)
  have hcount := henum.count_singletons (P := fun k => 1 ≤ k ∧ k ≤ T) hn C
  rw [if_pos ⟨hC, hpos, hle⟩] at hcount
  obtain ⟨g, hg, rfl⟩ := List.mem_map.1 (List.count_pos_iff.1 (hcount ▸ Nat.one_pos))
  exact henum.start g hg ▸ hg

end Enumerated

/-! ## What the overall yes means -/

section Private

variable {F : Type*} [Field F] {gb : GraphBase} {op : Computation F} {parties : List PartyDecl}
  {T : ℕ} {C : Finset PartyDecl}

/-- The view of the corrupted parties can be drawn from their inputs and outputs. -/
def Simulated (g : Graph) (op : Computation F) : Prop :=
  ∃ sim : (ℕ → F) → (g.randomIds → F) → ℕ → F, Simulation.Draws (g.executions op)
    (g.valuesAt g.isStart) (g.valuesAt (isKnown g)) (g.valuesAt g.isCorrupted) sim

/-- There is nothing to show when nobody is corrupted. -/
theorem simulated_of_nobody [Finite F] {g : Graph} (h : WellPosed g op parties)
    (hC : g.corruptedParties = ∅) : Simulated g op := by
  have : Inhabited (ℕ → F) := ⟨0⟩
  have hnobody : ∀ p : Node → Bool, (∀ n, p n = true → g.isCorrupted n = true) →
      ∀ u v : ℕ → F, g.valuesAt p u = g.valuesAt p v := by
    refine fun p hp u v => GraphBase.valuesAt_eq_iff.2 fun i n _ hn => ?_
    have hc := hp n hn
    rw [Graph.isCorrupted, hC] at hc
    exact absurd hc (by simp)
  refine Simulation.exists_draws (fun u (i : g.randomIds) => u i)
    (fun s _ => Graph.card_fiber h.sturdy.wellFormed h.singleAssignment h.acyclic s) ?_
    (fun u _ v _ _ => hnobody _ (fun n hn => (Bool.and_eq_true_iff.1 hn).2) u v)
    fun u _ v _ _ _ => hnobody _ (fun _ hn => hn) u v
  intro u hu v hv hin hcoins
  exact Graph.eq_of_isExecution h.sturdy.wellFormed h.singleAssignment h.acyclic hu hv hin
    fun i hi => congrFun hcoins ⟨i, hi⟩

/-- **What `prove()` proves.**  Let the classes be singletons, and let the protocol be
well-posed whichever `T` parties are corrupted.  If every run takes regular
matches only and `prove()` reports yes, under any schedule, then no set of at most
`T` parties learns more than its inputs and outputs. -/
theorem private_of_prove [Finite F] {env : Graph → Env}
    {schedule : Schedule (startGraphs gb (parties.map fun p => [p]) parties T).length}
    (hn : parties.Nodup)
    (hposed : ∀ C : Finset PartyDecl, C.card ≤ T →
      WellPosed (gb.toGraph parties.length T C) op parties)
    (hrun : ∀ g ∈ startGraphs gb (parties.map fun p => [p]) parties T,
      RegularRun (g.executions op) (env g) (equivalentRewriters parties g) g)
    (hyes : prove gb (parties.map fun p => [p]) parties T env schedule = some true)
    (hC : C ⊆ parties.toFinset) (hcard : C.card ≤ T) :
    Simulated (gb.toGraph parties.length T C) op := by
  have hp := hposed C hcard
  rcases C.eq_empty_or_nonempty with rfl | hne
  · exact simulated_of_nobody hp rfl
  · have hmem := mem_startGraphs_singletons gb hn hC hne.card_pos hcard
    exact hp.exists_simulator hcard (hrun _ hmem) ((tryAllPossibilities_iff schedule).1 hyes _ hmem)

/-- The loop does nothing where there is no bubble. -/
theorem regularRun_of_not_hasBubble {S : Set (ℕ → F)} {env : Env} {trs : List Transformer}
    {g₀ : Graph} (h : g₀.hasBubble = false) : RegularRun S env trs g₀ := by
  intro iter g considered node g' hv hb hs
  have hstart : g = g₀ := by
    clear hb hs
    induction hv with
    | start => rfl
    | step _ hb _ ih =>
        rw [ih, h] at hb
        exact absurd hb (by simp)
  rw [hstart, h] at hb
  exact absurd hb (by simp)

end Private

/-! ### Dealing, whoever is corrupted -/

theorem wellPosed_onePoly_corrupted (C : Finset PartyDecl) :
    WellPosed (onePoly.toGraphBase.toGraph 2 1 C) (evaluating (F := ZMod 3) onePolyPoint) [0, 1]
      where
  sturdy :=
    { wellFormed := sturdy_onePoly.wellFormed
      transitUnary := sturdy_onePoly.transitUnary
      addBinary := sturdy_onePoly.addBinary
      opened := sturdy_onePoly.opened
      arity := sturdy_onePoly.arity
      partiesIn := sturdy_onePoly.partiesIn
      card := sturdy_onePoly.card
      threshold := sturdy_onePoly.threshold }
  exact := Graph.exact_toGraph _ _ _ _
  acyclic := wellPosed_onePoly.acyclic
  singleAssignment := wellPosed_onePoly.singleAssignment
  interprets := wellPosed_onePoly.interprets
  opens := wellPosed_onePoly.opens
  functional := wellPosed_onePoly.functional

theorem private_of_prove_onePoly :
    Simulated (onePoly.toGraphBase.toGraph 2 1 {1}) (evaluating (F := ZMod 3) onePolyPoint) := by
  have hgraphs : startGraphs onePoly.toGraphBase ([0, 1].map fun p => [p]) [0, 1] 1 =
      [onePoly, onePoly.toGraphBase.toGraph 2 1 {0}] := by decide +kernel
  refine @private_of_prove _ _ _ _ [0, 1] 1 {1} _ (fun _ => .sequential) (.serial _)
    (by decide) (fun C _ => wellPosed_onePoly_corrupted C) ?_ (by decide +kernel) (by decide)
    (by decide)
  rw [hgraphs]
  intro g hg
  simp only [List.mem_cons, List.not_mem_nil, or_false] at hg
  rcases hg with rfl | rfl
  · exact regularRun_onePoly
  · exact regularRun_of_not_hasBubble (by decide +kernel)

end Prover

end Gauv
