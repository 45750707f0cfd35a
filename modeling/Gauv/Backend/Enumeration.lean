import Gauv.Backend.Prover

/-!
# The enumeration of corrupted sets

Parties of one class are interchangeable, so a corruption scenario is a choice
vector: how many members of each class are corrupted.  The recursive search is
rewritten as a map over the list of choice vectors, and that list is shown to
contain every vector within the quota exactly once.
-/

namespace Gauv

namespace Prover

/-! ## Choice vectors -/

/-- The choice vectors of total at most `quota`, in the order the search tries
them. -/
def choices : List (List PartyDecl) → ℕ → List (List ℕ)
  | [], _ => [[]]
  | cls :: classes, quota =>
      (List.range (min quota cls.length + 1)).flatMap fun k =>
        (choices classes (quota - k)).map (k :: ·)

/-- The set the search corrupts for a vector: the first `k` members of each
class. -/
def corruptedOf : List (List PartyDecl) → List ℕ → Finset PartyDecl
  | cls :: classes, k :: ks => (cls.take k).toFinset ∪ corruptedOf classes ks
  | _, _ => ∅

/-- The vector asks no class for more members than it has. -/
def IsChoice (classes : List (List PartyDecl)) (ks : List ℕ) : Prop :=
  List.Forall₂ (fun k cls => k ≤ cls.length) ks classes

/-- The set corrupts exactly as many members of each class as the vector says,
and nobody outside the classes. -/
structure Corrupts (classes : List (List PartyDecl)) (ks : List ℕ) (C : Finset PartyDecl) :
    Prop where
  counts : List.Forall₂ (fun k cls => (C ∩ cls.toFinset).card = k) ks classes
  nobodyElse : ∀ p ∈ C, ∃ cls ∈ classes, p ∈ cls

theorem mem_choices {classes : List (List PartyDecl)} {quota : ℕ} {ks : List ℕ} :
    ks ∈ choices classes quota ↔ IsChoice classes ks ∧ ks.sum ≤ quota := by
  induction classes generalizing quota ks with
  | nil =>
      rw [choices, IsChoice, List.forall₂_nil_right_iff, List.mem_singleton]
      constructor
      · rintro rfl
        exact ⟨rfl, Nat.zero_le _⟩
      · exact fun h => h.1
  | cons cls classes ih =>
      rw [choices, List.mem_flatMap]
      constructor
      · rintro ⟨k, hk, hks⟩
        obtain ⟨ks', hks', rfl⟩ := List.mem_map.1 hks
        obtain ⟨hc, hsum⟩ := ih.1 hks'
        rw [List.mem_range] at hk
        refine ⟨.cons (by omega) hc, ?_⟩
        rw [List.sum_cons]
        omega
      · rintro ⟨hc, hsum⟩
        cases hc with
        | @cons k _ ks _ hk hc =>
            rw [List.sum_cons] at hsum
            refine ⟨k, List.mem_range.2 (by omega), List.mem_map.2 ⟨ks, ?_, rfl⟩⟩
            exact ih.2 ⟨hc, by omega⟩

theorem nodup_choices (classes : List (List PartyDecl)) (quota : ℕ) :
    (choices classes quota).Nodup := by
  induction classes generalizing quota with
  | nil => exact List.nodup_singleton _
  | cons cls classes ih =>
      rw [choices, List.nodup_flatMap]
      constructor
      · exact fun k _ => (ih (quota - k)).map fun a b h => (List.cons.inj h).2
      · refine List.nodup_range.imp fun {k k'} hne => ?_
        rw [Function.onFun, List.disjoint_left]
        intro ks hks hks'
        obtain ⟨_, _, rfl⟩ := List.mem_map.1 hks
        obtain ⟨_, _, h⟩ := List.mem_map.1 hks'
        exact hne (List.cons.inj h).1.symm

/-! ## The search as a map -/

/-- The loop over the members of a class runs the search once for each number
of members it can still corrupt. -/
theorem searchMembers_eq (search : ℕ → Finset PartyDecl → List Graph) (quota : ℕ)
    (ps : List PartyDecl) {i : ℕ} (hi : i ≤ quota) (corrupted : Finset PartyDecl) :
    searchMembers search quota ps i corrupted =
      (List.range (min (quota - i) ps.length)).flatMap fun j =>
        search (quota - (i + j + 1)) (corrupted ∪ (ps.take (j + 1)).toFinset) := by
  induction ps generalizing i corrupted with
  | nil => simp [searchMembers]
  | cons p ps ih =>
      rw [searchMembers]
      by_cases hq : i = quota
      · rw [if_pos hq]
        subst hq
        simp
      · rw [if_neg hq, ih (i := i + 1) (by omega)]
        have hmin : min (quota - i) (p :: ps).length = min (quota - (i + 1)) ps.length + 1 := by
          rw [List.length_cons]
          omega
        rw [hmin, List.range_succ_eq_map, List.flatMap_cons, List.flatMap_map]
        congr 1
        · rw [show insert p corrupted = corrupted ∪ ((p :: ps).take 1).toFinset by
            ext x
            simp]
        · refine List.flatMap_congr fun j _ => ?_
          congr 1
          · omega
          · ext x
            simp

/-- The test at the end of the search, for the vector that led there. -/
def accepts (isQuotaStrict : Bool) (quota : ℕ) (corrupted : Finset PartyDecl) (ks : List ℕ) :
    Bool :=
  decide (corrupted.card > 0 ∧
    ((isQuotaStrict = true ∧ quota - ks.sum = 0) ∨ isQuotaStrict = false))

theorem accepts_cons (strict : Bool) (quota : ℕ) (corrupted : Finset PartyDecl) (k : ℕ)
    (ks : List ℕ) :
    accepts strict quota corrupted (k :: ks) = accepts strict (quota - k) corrupted ks := by
  rw [accepts, accepts, decide_eq_decide, List.sum_cons, Nat.sub_sub]

/-- The search appends one start graph for each accepted choice vector. -/
theorem searchAllPossibilities_eq (gb : GraphBase) (n T : ℕ) (strict : Bool)
    (classes : List (List PartyDecl)) (quota : ℕ) (corrupted : Finset PartyDecl) :
    searchAllPossibilities gb n T strict classes quota corrupted =
      ((choices classes quota).filter
        (fun ks => accepts strict quota (corrupted ∪ corruptedOf classes ks) ks)).map
        (fun ks => gb.toGraph n T (corrupted ∪ corruptedOf classes ks)) := by
  induction classes generalizing quota corrupted with
  | nil =>
      have hacc : accepts strict quota (corrupted ∪ corruptedOf [] []) [] = decide
          (corrupted.card > 0 ∧ ((strict = true ∧ quota = 0) ∨ strict = false)) := by
        simp only [corruptedOf, Finset.union_empty, accepts, List.sum_nil, Nat.sub_zero]
      rw [searchAllPossibilities, choices]
      split
      · rename_i h
        rw [List.filter_cons_of_pos (by rw [hacc]; exact decide_eq_true h)]
        simp [corruptedOf]
      · rename_i h
        rw [List.filter_cons_of_neg (by rw [hacc]; simpa using h)]
        rfl
  | cons cls classes ih =>
      rw [searchAllPossibilities, searchMembers_eq _ _ _ (Nat.zero_le _), choices,
        List.range_succ_eq_map, List.flatMap_cons, List.filter_append, List.map_append,
        Nat.sub_zero]
      congr 1
      · rw [ih, List.filter_map, List.map_map]
        simp [Function.comp_def, corruptedOf, accepts_cons]
      · rw [List.flatMap_map, List.filter_flatMap, List.map_flatMap]
        refine List.flatMap_congr fun j _ => ?_
        rw [ih, List.filter_map, List.map_map]
        simp only [Function.comp_def, corruptedOf, accepts_cons, zero_add,
          Finset.union_assoc, Nat.succ_eq_add_one]

/-! ## The set of a vector -/

theorem corruptedOf_subset {classes : List (List PartyDecl)} {ks : List ℕ} {p : PartyDecl}
    (h : p ∈ corruptedOf classes ks) : ∃ cls ∈ classes, p ∈ cls := by
  induction classes generalizing ks with
  | nil => simp [corruptedOf] at h
  | cons cls classes ih =>
      cases ks with
      | nil => simp [corruptedOf] at h
      | cons k ks =>
          rw [corruptedOf, Finset.mem_union] at h
          rcases h with h | h
          · exact ⟨cls, List.mem_cons_self .., List.mem_of_mem_take (List.mem_toFinset.1 h)⟩
          · obtain ⟨cls', hcls', hp⟩ := ih h
            exact ⟨cls', List.mem_cons_of_mem _ hcls', hp⟩

section Disjoint

variable {classes : List (List PartyDecl)} (hn : ∀ cls ∈ classes, cls.Nodup)
  (hd : classes.Pairwise List.Disjoint)

include hn hd

/-- The set of a vector corrupts what the vector says. -/
theorem corrupts_corruptedOf {ks : List ℕ} (h : IsChoice classes ks) :
    Corrupts classes ks (corruptedOf classes ks) := by
  refine ⟨?_, fun _ => corruptedOf_subset⟩
  induction h with
  | nil => exact .nil
  | @cons k cls ks classes hk hrest ih =>
      obtain ⟨hdis, hd⟩ := List.pairwise_cons.1 hd
      have hrec := ih (fun c hc => hn c (List.mem_cons_of_mem _ hc)) hd
      constructor
      · have hint : corruptedOf (cls :: classes) (k :: ks) ∩ cls.toFinset
            = (cls.take k).toFinset := by
          ext p
          simp only [corruptedOf, Finset.mem_inter, Finset.mem_union, List.mem_toFinset]
          constructor
          · rintro ⟨hp | hp, hcls⟩
            · exact hp
            · obtain ⟨c, hc, hpc⟩ := corruptedOf_subset hp
              exact absurd hpc (List.disjoint_left.1 (hdis c hc) hcls)
          · exact fun hp => ⟨Or.inl hp, List.mem_of_mem_take hp⟩
        rw [hint, List.toFinset_card_of_nodup ((hn cls (List.mem_cons_self ..)).take),
          List.length_take, min_eq_left hk]
      · have hrest' := List.forall₂_iff_get.1 hrec
        refine List.forall₂_iff_get.2 ⟨hrest'.1, fun i h₁ h₂ => ?_⟩
        rw [← hrest'.2 i h₁ h₂]
        congr 1
        ext p
        simp only [corruptedOf, Finset.mem_inter, Finset.mem_union, List.mem_toFinset]
        constructor
        · rintro ⟨hp | hp, hc⟩
          · exact absurd hc (List.disjoint_left.1 (hdis _ (List.get_mem ..))
              (List.mem_of_mem_take hp))
          · exact ⟨hp, hc⟩
        · exact fun hp => ⟨Or.inr hp.1, hp.2⟩

theorem card_corruptedOf {ks : List ℕ} (h : IsChoice classes ks) :
    (corruptedOf classes ks).card = ks.sum := by
  induction h with
  | nil => rfl
  | @cons k cls ks classes hk hrest ih =>
      obtain ⟨hdis, hd⟩ := List.pairwise_cons.1 hd
      rw [corruptedOf, Finset.card_union_of_disjoint, List.sum_cons,
        ih (fun c hc => hn c (List.mem_cons_of_mem _ hc)) hd,
        List.toFinset_card_of_nodup ((hn cls (List.mem_cons_self ..)).take),
        List.length_take, min_eq_left hk]
      rw [Finset.disjoint_left]
      intro p hp hp'
      obtain ⟨c, hc, hpc⟩ := corruptedOf_subset hp'
      exact List.disjoint_left.1 (hdis c hc) (List.mem_of_mem_take (List.mem_toFinset.1 hp)) hpc

end Disjoint

/-- A set determines the vector it corrupts. -/
theorem Corrupts.unique {classes : List (List PartyDecl)} {ks ks' : List ℕ}
    {C : Finset PartyDecl} (h : Corrupts classes ks C) (h' : Corrupts classes ks' C) :
    ks = ks' := by
  have h₁ := List.forall₂_iff_get.1 h.counts
  have h₂ := List.forall₂_iff_get.1 h'.counts
  refine List.ext_getElem (h₁.1.trans h₂.1.symm) fun i hi hi' => ?_
  have e₁ := h₁.2 i hi (h₁.1 ▸ hi)
  have e₂ := h₂.2 i hi' (h₁.1 ▸ hi)
  exact e₁.symm.trans e₂

/-! ## The start graphs -/

/-- The start graphs correspond one to one to the choice vectors that satisfy
`P`, each graph corrupting what its vector says. -/
structure Enumerates (gb : GraphBase) (n T : ℕ) (classes : List (List PartyDecl))
    (P : List ℕ → Prop) (graphs : List Graph) : Prop where
  nodup : graphs.Nodup
  graph_of : ∀ ks, IsChoice classes ks → P ks →
    ∃! g, g ∈ graphs ∧ Corrupts classes ks g.corruptedParties
  choice_of : ∀ g ∈ graphs,
    ∃! ks, IsChoice classes ks ∧ P ks ∧ Corrupts classes ks g.corruptedParties
  start : ∀ g ∈ graphs, g = gb.toGraph n T g.corruptedParties

/-- A list of start graphs made from distinct vectors enumerates them. -/
theorem enumerates_map {gb : GraphBase} {n T : ℕ} {classes : List (List PartyDecl)}
    {P : List ℕ → Prop} {kss : List (List ℕ)} (hn : ∀ cls ∈ classes, cls.Nodup)
    (hd : classes.Pairwise List.Disjoint) (hnd : kss.Nodup)
    (hmem : ∀ ks, ks ∈ kss ↔ IsChoice classes ks ∧ P ks) :
    Enumerates gb n T classes P (kss.map fun ks => gb.toGraph n T (corruptedOf classes ks)) where
  nodup := by
    refine List.Nodup.map_on (fun ks hks ks' hks' h => ?_) hnd
    have hc : corruptedOf classes ks = corruptedOf classes ks' :=
      congrArg Graph.corruptedParties h
    have h₁ := corrupts_corruptedOf hn hd ((hmem ks).1 hks).1
    have h₂ := corrupts_corruptedOf hn hd ((hmem ks').1 hks').1
    rw [hc] at h₁
    exact h₁.unique h₂
  graph_of := by
    intro ks hks hP
    refine ⟨gb.toGraph n T (corruptedOf classes ks),
      ⟨List.mem_map.2 ⟨ks, (hmem ks).2 ⟨hks, hP⟩, rfl⟩, corrupts_corruptedOf hn hd hks⟩, ?_⟩
    rintro g ⟨hg, hc⟩
    obtain ⟨ks', hks', rfl⟩ := List.mem_map.1 hg
    rw [hc.unique (corrupts_corruptedOf hn hd ((hmem ks').1 hks').1)]
  choice_of := by
    intro g hg
    obtain ⟨ks, hks, rfl⟩ := List.mem_map.1 hg
    obtain ⟨hch, hP⟩ := (hmem ks).1 hks
    exact ⟨ks, ⟨hch, hP, corrupts_corruptedOf hn hd hch⟩,
      fun ks' h => h.2.2.unique (corrupts_corruptedOf hn hd hch)⟩
  start := by
    intro g hg
    obtain ⟨ks, -, rfl⟩ := List.mem_map.1 hg
    rfl

theorem enumerates_startGraphs (gb : GraphBase) {classes : List (List PartyDecl)}
    (parties : List PartyDecl) (T : ℕ) (hn : ∀ cls ∈ classes, cls.Nodup)
    (hd : classes.Pairwise List.Disjoint) :
    Enumerates gb parties.length T classes (fun ks => 1 ≤ ks.sum ∧ ks.sum ≤ T)
      (startGraphs gb classes parties T) := by
  rw [startGraphs, searchAllPossibilities_eq]
  simp only [Finset.empty_union]
  refine enumerates_map hn hd ((nodup_choices classes T).filter _) fun ks => ?_
  rw [List.mem_filter, mem_choices, accepts, decide_eq_true_iff]
  constructor
  · rintro ⟨⟨hc, hle⟩, hpos, -⟩
    rw [card_corruptedOf hn hd hc] at hpos
    exact ⟨hc, hpos, hle⟩
  · rintro ⟨hc, hpos, hle⟩
    exact ⟨⟨hc, hle⟩, by rw [card_corruptedOf hn hd hc]; exact hpos, Or.inr rfl⟩

theorem enumerates_startGraphsExactly (gb : GraphBase) {classes : List (List PartyDecl)}
    (parties : List PartyDecl) (T I : ℕ) (hn : ∀ cls ∈ classes, cls.Nodup)
    (hd : classes.Pairwise List.Disjoint) :
    Enumerates gb parties.length T classes (fun ks => ks.sum = I ∧ 1 ≤ I)
      (startGraphsExactly gb classes parties T I) := by
  rw [startGraphsExactly, searchAllPossibilities_eq]
  simp only [Finset.empty_union]
  refine enumerates_map hn hd ((nodup_choices classes I).filter _) fun ks => ?_
  rw [List.mem_filter, mem_choices, accepts, decide_eq_true_iff]
  constructor
  · rintro ⟨⟨hc, hle⟩, hpos, h⟩
    rw [card_corruptedOf hn hd hc] at hpos
    have : I - ks.sum = 0 := by simpa using h
    exact ⟨hc, by omega, by omega⟩
  · rintro ⟨hc, rfl, hpos⟩
    exact ⟨⟨hc, le_rfl⟩, by rw [card_corruptedOf hn hd hc]; exact hpos,
      Or.inl ⟨rfl, Nat.sub_self _⟩⟩

/-! ## Singleton classes -/

/-- With singleton classes the start graphs of an enumeration are told apart by
their corrupted sets, and the sets are those the vectors' totals allow. -/
theorem Enumerates.count_singletons {gb : GraphBase} {n T : ℕ} {parties : List PartyDecl}
    {P : ℕ → Prop} [DecidablePred P] {graphs : List Graph}
    (h : Enumerates gb n T (parties.map fun p => [p]) (fun ks => P ks.sum) graphs)
    (hn : parties.Nodup) (C : Finset PartyDecl) :
    (graphs.map Graph.corruptedParties).count C =
      if C ⊆ parties.toFinset ∧ P C.card then 1 else 0 := by
  have hnd : (graphs.map Graph.corruptedParties).Nodup := by
    refine List.Nodup.map_on (fun g hg g' hg' hc => ?_) h.nodup
    rw [h.start g hg, h.start g' hg', hc]
  have hcls : ∀ cls ∈ parties.map fun p => [p], cls.Nodup := by
    intro cls hc
    obtain ⟨p, -, rfl⟩ := List.mem_map.1 hc
    exact List.nodup_singleton p
  have hdis : (parties.map fun p => [p]).Pairwise List.Disjoint := by
    rw [List.pairwise_map]
    exact hn.imp fun hne => by simpa using hne.symm
  -- the vector of a set counts each party it contains
  set ks : List ℕ := parties.map fun p => if p ∈ C then 1 else 0 with hks
  have hch : IsChoice (parties.map fun p => [p]) ks := by
    rw [IsChoice, hks, List.forall₂_map_left_iff, List.forall₂_map_right_iff, List.forall₂_same]
    intro p _
    split <;> simp
  have hcor : C ⊆ parties.toFinset → Corrupts (parties.map fun p => [p]) ks C := by
    refine fun hC => ⟨?_, fun p hp => ⟨[p], List.mem_map.2 ⟨p, ?_, rfl⟩, by simp⟩⟩
    · rw [hks, List.forall₂_map_left_iff, List.forall₂_map_right_iff, List.forall₂_same]
      intro p _
      by_cases hp : p ∈ C <;> simp [hp]
    · exact List.mem_toFinset.1 (hC hp)
  have hsum : C ⊆ parties.toFinset → ks.sum = C.card := by
    intro hC
    rw [hks, ← List.sum_toFinset _ hn, Finset.sum_ite_mem, Finset.inter_eq_right.2 hC]
    simp
  have hmem : C ∈ graphs.map Graph.corruptedParties ↔ C ⊆ parties.toFinset ∧ P C.card := by
    constructor
    · intro hCm
      obtain ⟨g, hg, rfl⟩ := List.mem_map.1 hCm
      obtain ⟨ks', ⟨-, hP, hc⟩, -⟩ := h.choice_of g hg
      have hsub : g.corruptedParties ⊆ parties.toFinset := by
        intro p hp
        obtain ⟨cls, hcl, hpc⟩ := hc.nobodyElse p hp
        obtain ⟨q, hq, rfl⟩ := List.mem_map.1 hcl
        rw [List.mem_singleton] at hpc
        exact List.mem_toFinset.2 (hpc ▸ hq)
      refine ⟨hsub, ?_⟩
      rw [← hsum hsub, ← hc.unique (hcor hsub)]
      exact hP
    · rintro ⟨hC, hP⟩
      rw [← hsum hC] at hP
      obtain ⟨g, ⟨hg, hc⟩, -⟩ := h.graph_of ks hch hP
      refine List.mem_map.2 ⟨g, hg, ?_⟩
      ext p
      have hcnt : ∀ p ∈ parties, (g.corruptedParties ∩ {p}).card = if p ∈ C then 1 else 0 := by
        have := hc.counts
        rw [hks, List.forall₂_map_left_iff, List.forall₂_map_right_iff, List.forall₂_same] at this
        simpa using this
      by_cases hp : p ∈ parties
      · have := hcnt p hp
        by_cases hpC : p ∈ C <;> by_cases hpg : p ∈ g.corruptedParties <;>
          simp_all
      · constructor
        · intro hpg
          obtain ⟨cls, hcl, hpc⟩ := hc.nobodyElse p hpg
          obtain ⟨q, hq, rfl⟩ := List.mem_map.1 hcl
          rw [List.mem_singleton] at hpc
          exact absurd (hpc ▸ hq) hp
        · exact fun hpC => absurd (List.mem_toFinset.1 (hC hpC)) hp
  rw [List.Nodup.count hnd]
  exact if_congr hmem rfl rfl

/-- **The enumeration is exhaustive and duplicate-free.**  The start graphs of
`prove()` and of `prove(I)` correspond one to one to the choice vectors of a
total between one and `T`, respectively of total `I`; with singleton classes
every corrupted set of such a size is tested exactly once, and no other set. -/
theorem start_graphs_exhaustive (gb : GraphBase) {classes : List (List PartyDecl)}
    (parties : List PartyDecl) (T I : ℕ) (hn : ∀ cls ∈ classes, cls.Nodup)
    (hd : classes.Pairwise List.Disjoint) :
    Enumerates gb parties.length T classes (fun ks => 1 ≤ ks.sum ∧ ks.sum ≤ T)
      (startGraphs gb classes parties T) ∧
    Enumerates gb parties.length T classes (fun ks => ks.sum = I ∧ 1 ≤ I)
      (startGraphsExactly gb classes parties T I) ∧
    (classes = parties.map (fun p => [p]) → ∀ C : Finset PartyDecl,
      ((startGraphs gb classes parties T).map Graph.corruptedParties).count C =
        (if C ⊆ parties.toFinset ∧ 1 ≤ C.card ∧ C.card ≤ T then 1 else 0) ∧
      ((startGraphsExactly gb classes parties T I).map Graph.corruptedParties).count C =
        (if C ⊆ parties.toFinset ∧ C.card = I ∧ 1 ≤ I then 1 else 0)) := by
  have h₁ := enumerates_startGraphs gb parties T hn hd
  have h₂ := enumerates_startGraphsExactly gb parties T I hn hd
  refine ⟨h₁, h₂, ?_⟩
  rintro rfl C
  have hnp : parties.Nodup := by
    rw [List.pairwise_map] at hd
    exact hd.imp fun hdis => by simpa using hdis.symm
  exact ⟨h₁.count_singletons (P := fun k => 1 ≤ k ∧ k ≤ T) hnp C,
    h₂.count_singletons (P := fun k => k = I ∧ 1 ≤ I) hnp C⟩

/-- A class of one party and a class of two, with two corruptions allowed. -/
theorem start_graphs_exhaustive_three :
    Enumerates ⟨[], [], []⟩ 3 2 [[1], [2, 3]] (fun ks => 1 ≤ ks.sum ∧ ks.sum ≤ 2)
      (startGraphs ⟨[], [], []⟩ [[1], [2, 3]] [1, 2, 3] 2) :=
  (start_graphs_exhaustive ⟨[], [], []⟩ [1, 2, 3] 2 1 (by decide) (by simp)).1

end Prover

end Gauv
