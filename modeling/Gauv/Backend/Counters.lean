import Gauv.Backend.Adjacency

/-!
# The incremental counters

`eliminateEdge`, `addEdge` and `eliminateNode` adjust the random node count and
the bubble count by looking at one node only.  A graph is `Exact` when the two
numbers are what the recomputing constructor would give; this file shows that
removing an edge that is there and adding one that is not keep it so.
-/

namespace Gauv

namespace GraphBase

variable {g : GraphBase}

/-- A live node stands in the table. -/
theorem node?_eq_some_iff {i : ℕ} {n : Node} :
    g.node? i = some n ↔ ∃ h : i < g.nodes.length, g.nodes[i] = some n := by
  constructor
  · intro h
    have hi : i < g.nodes.length := lt_of_node? h
    refine ⟨hi, ?_⟩
    rwa [node?, List.getD_eq_getElem _ _ hi] at h
  · rintro ⟨hi, h⟩
    rw [node?, List.getD_eq_getElem _ _ hi, h]

/-- If two node predicates agree on every live node but `d`, the counts of the
live nodes that pass them differ by what happens at `d`. -/
theorem countP_nodes_update (hg : ∀ {i n}, g.node? i = some n → n.guid = i) {p q : Node → Bool}
    {d : Node} (hd : g.node? d.guid = some d)
    (h : ∀ n, g.node? n.guid = some n → n.guid ≠ d.guid → q n = p n) :
    (g.nodes.countP (fun o => o.any q) : ℤ) =
      g.nodes.countP (fun o => o.any p) + (if q d then 1 else 0) - (if p d then 1 else 0) := by
  obtain ⟨hi, hnd⟩ := node?_eq_some_iff.1 hd
  have key := countP_update (p := fun o : Option Node => o.any p) (q := fun o => o.any q) hi
    (fun j hj hji => by
      cases hn : g.nodes[j] with
      | none => rfl
      | some n =>
          have hnj : g.node? j = some n := node?_eq_some_iff.2 ⟨hj, hn⟩
          have hgj : n.guid = j := hg hnj
          refine h n (by rw [hgj]; exact hnj) ?_
          rw [hgj]
          exact hji)
  rw [hnd] at key
  exact key

/-- How many nodes pass a test. -/
theorem countP_nodes (g : GraphBase) (p : Node → Bool) :
    g.nodes.countP (fun o => o.any p) = {i | (g.node? i).any p = true}.ncard := by
  have hsum : ∀ l : List (Option Node), l.countP (fun o => o.any p) =
      (l.map fun o => if o.any p then 1 else 0).sum := by
    intro l
    induction l with
    | nil => rfl
    | cons o l ih =>
        rw [List.countP_cons, List.map_cons, List.sum_cons, ih, Nat.add_comm]
  have hset : {i | (g.node? i).any p = true} =
      ((Finset.range g.nodeSize).filter fun i => (g.node? i).any p = true : Finset ℕ) := by
    ext i
    rw [Finset.mem_coe, Finset.mem_filter, Finset.mem_range]
    refine ⟨fun hi => ⟨?_, hi⟩, fun hi => hi.2⟩
    obtain ⟨n, hn, -⟩ := (Option.any_eq_true _ _).1 hi
    exact lt_of_node? hn
  rw [hset, Set.ncard_coe_finset, Finset.card_filter, hsum]
  exact (sum_getD (fun o : Option Node => if o.any p then 1 else 0) none g.nodes).symm

/-- Finitely many indices pass a test of their nodes. -/
theorem finite_any_node? (g : GraphBase) (p : Node → Bool) :
    {i | (g.node? i).any p = true}.Finite := by
  refine (Set.finite_Iio g.nodeSize).subset fun i hi => ?_
  obtain ⟨n, hn, -⟩ := (Option.any_eq_true _ _).1 hi
  exact lt_of_node? hn

end GraphBase

namespace Graph

open GraphBase

/-- The counters are what the recomputing constructor would give. -/
structure Exact (g : Graph) : Prop where
  random : g.randomNodeCnt = g.countRandom
  bubble : g.bubbleCnt = g.countBubble g.corruptedParties

variable {g : Graph} {e : Operation}

/-- The constructor counts both counters. -/
theorem exact_toGraph (b : GraphBase) (partyCnt T : ℕ) (C : Finset PartyDecl) :
    (b.toGraph partyCnt T C).Exact :=
  ⟨rfl, rfl⟩

/-- Exact counters are not negative. -/
theorem Exact.nonneg (h : g.Exact) : 0 ≤ g.randomNodeCnt ∧ 0 ≤ g.bubbleCnt := by
  rw [h.random, h.bubble]
  exact ⟨Int.natCast_nonneg _, Int.natCast_nonneg _⟩

/-- An exact bubble count says whether some live node is a bubble. -/
theorem hasBubble_iff {C : Finset PartyDecl} (h : g.bubbleCnt = g.countBubble C) :
    g.hasBubble = true ↔ ∃ i n, g.node? i = some n ∧ g.isBubble C n = true := by
  rw [hasBubble, h, countBubble, decide_eq_true_eq, gt_iff_lt, Int.natCast_pos,
    List.countP_pos_iff]
  constructor
  · rintro ⟨o, ho, hb⟩
    obtain ⟨n, rfl, hn⟩ := (Option.any_eq_true _ _).1 hb
    obtain ⟨i, hi, hin⟩ := List.getElem_of_mem ho
    exact ⟨i, n, node?_eq_some_iff.2 ⟨hi, hin⟩, hn⟩
  · rintro ⟨i, n, hn, hb⟩
    obtain ⟨hi, hin⟩ := node?_eq_some_iff.1 hn
    exact ⟨some n, hin ▸ List.getElem_mem hi, hb⟩

/-- A recount of the random nodes after an edge is eliminated. -/
theorem countRandom_eliminateEdge (hg : g.WellFormed) (he : g.HasEdge e) :
    (g.eliminateEdge e).countRandom = g.countRandom
      + ofBool (g.inDeg e.output.guid = 1 && !e.output.isInput && !e.output.isOutput) := by
  have hpos : 0 < g.inDeg e.output.guid := List.length_pos_of_mem he
  have hdeg := inDeg_eliminateEdge he
  rw [countRandom, countRandom]
  change (g.nodes.countP (fun o => o.any (g.eliminateEdge e).isRandom) : ℤ) = _
  rw [countP_nodes_update hg.guid_eq (p := g.isRandom) (hg.output_live he)]
  · have h0 : g.isRandom e.output = false := by
      simp [isRandom]
      omega
    have h1 : (g.eliminateEdge e).isRandom e.output
        = (g.inDeg e.output.guid = 1 && !e.output.isInput && !e.output.isOutput) := by
      have : g.inDeg e.output.guid - 1 = 0 ↔ g.inDeg e.output.guid = 1 := by omega
      simp only [isRandom, hdeg, if_true, this]
    rw [h0, h1, ofBool]
    simp
  · intro n _ hne
    simp only [isRandom, hdeg, if_neg hne, Nat.sub_zero]

/-- A recount of the bubbles after an edge is eliminated. -/
theorem countBubble_eliminateEdge (hg : g.WellFormed) (he : g.HasEdge e) :
    (g.eliminateEdge e).countBubble g.corruptedParties = g.countBubble g.corruptedParties
      - ofBool (g.inDeg e.output.guid = 1 && (e.output.isInput || e.output.isOutput)
          && g.isCorrupted e.output) := by
  have hpos : 0 < g.inDeg e.output.guid := List.length_pos_of_mem he
  have hdeg := inDeg_eliminateEdge he
  rw [countBubble, countBubble]
  change (g.nodes.countP (fun o => o.any ((g.eliminateEdge e).isBubble g.corruptedParties)) : ℤ) = _
  rw [countP_nodes_update hg.guid_eq (p := g.isBubble g.corruptedParties) (hg.output_live he)]
  · have h1 : (g.inDeg e.output.guid - 1 != 0) = !decide (g.inDeg e.output.guid = 1) := by
      rw [Bool.eq_iff_iff]
      simp
      omega
    have h2 : (g.inDeg e.output.guid != 0) = true := by
      simp
      omega
    simp only [isBubble, hdeg, if_true, h1, h2, isCorrupted, ofBool, Node.isInOut]
    by_cases hc : e.output.party ∈ g.corruptedParties
    · cases decide (g.inDeg e.output.guid = 1) <;>
        cases (e.output.isInput || e.output.isOutput) <;> simp [hc]
    · simp [hc]
  · intro n _ hne
    simp only [isBubble, hdeg, if_neg hne, Nat.sub_zero]

theorem exact_eliminateEdge (hg : g.WellFormed) (hx : g.Exact) (he : g.HasEdge e) :
    (g.eliminateEdge e).Exact where
  random := by
    rw [countRandom_eliminateEdge hg he, ← hx.random]
    rfl
  bubble := by
    have := countBubble_eliminateEdge hg he
    rw [← hx.bubble] at this
    exact this.symm

/-- A recount of the random nodes after an edge is added. -/
theorem countRandom_addEdge (hg : g.WellFormed) (ha : g.Addable e) :
    (g.addEdge e).countRandom = g.countRandom
      - ofBool (g.inDeg e.output.guid = 0 && !e.output.isInput && !e.output.isOutput) := by
  have hdeg := inDeg_addEdge hg ha
  rw [countRandom, countRandom]
  change (g.nodes.countP (fun o => o.any (g.addEdge e).isRandom) : ℤ) = _
  rw [countP_nodes_update hg.guid_eq (p := g.isRandom) (ha.live _ (List.mem_cons_self ..))]
  · have h1 : (g.addEdge e).isRandom e.output = false := by
      simp [isRandom, hdeg]
    rw [h1, ofBool, isRandom]
    simp
  · intro n _ hne
    simp only [isRandom, hdeg, if_neg hne, Nat.add_zero]

/-- A recount of the bubbles after an edge is added. -/
theorem countBubble_addEdge (hg : g.WellFormed) (ha : g.Addable e) :
    (g.addEdge e).countBubble g.corruptedParties = g.countBubble g.corruptedParties
      + ofBool (g.inDeg e.output.guid = 0 && (e.output.isInput || e.output.isOutput)
          && g.isCorrupted e.output) := by
  have hdeg := inDeg_addEdge hg ha
  rw [countBubble, countBubble]
  change (g.nodes.countP (fun o => o.any ((g.addEdge e).isBubble g.corruptedParties)) : ℤ) = _
  rw [countP_nodes_update hg.guid_eq (p := g.isBubble g.corruptedParties)
    (ha.live _ (List.mem_cons_self ..))]
  · have h1 : (g.inDeg e.output.guid + 1 != 0) = true := by simp
    have h2 : (g.inDeg e.output.guid != 0) = !decide (g.inDeg e.output.guid = 0) := by
      rw [Bool.eq_iff_iff]
      simp
    simp only [isBubble, hdeg, if_true, h1, h2, isCorrupted, ofBool, Node.isInOut]
    by_cases hc : e.output.party ∈ g.corruptedParties
    · cases decide (g.inDeg e.output.guid = 0) <;>
        cases (e.output.isInput || e.output.isOutput) <;> simp [hc]
    · simp [hc]
  · intro n _ hne
    simp only [isBubble, hdeg, if_neg hne, Nat.add_zero]

theorem exact_addEdge (hg : g.WellFormed) (hx : g.Exact) (ha : g.Addable e) :
    (g.addEdge e).Exact where
  random := by
    rw [countRandom_addEdge hg ha, ← hx.random]
    rfl
  bubble := by
    have := countBubble_addEdge hg ha
    rw [← hx.bubble] at this
    exact this.symm

end Graph

end Gauv
